import Xv6Mlfq.Log.Ops

/-!
# Recovery

`durable h` are the writes of the groups whose commit header has reached the disk in the run `h`, and
`pending h` those of the group that is open. The disk that the committed groups add up to is `replay` of
the durable writes; `Stage` says how disk, buffers, log area and header relate to it before every `bwrite`
of `commit` and of `recover_from_log`.

The test of `log_write` is made without the lock, so a group can log one block more than the log area of
mkfs holds. All `NBUF` buffers are dirty then, and the first `bread` of `write_log` panics: a commit that
has written something fits into the area (`Stage.room`).
-/

namespace Xv6Mlfq.Log

open Lib

variable {ι β : Type}

/-! ## Writes of a run -/

/-- A write: the operation, the block and its new contents. -/
abbrev Write (ι β : Type) : Type := ι × Nat × β

def recorded (s : State ι β) : Act ι β → Option (Write ι β)
  | .logRecord o =>
    match s.ops o with
    | .writing b x => some (o, b, x)
    | _ => none
  | _ => none

/-- The writes recorded since the last commit or crash, latest first. -/
def pending : List (Event ι β) → List (Write ι β)
  | [] => []
  | (s, a) :: h =>
    match a with
    | .writeHead => []
    | .crash => []
    | a => (recorded s a).toList ++ pending h

/-- The writes of the groups whose commit header has reached the disk, latest first. -/
def durable : List (Event ι β) → List (Write ι β)
  | [] => []
  | (_, a) :: h =>
    match a with
    | .writeHead => pending h ++ durable h
    | _ => durable h

def replay (d : Nat → β) (ws : List (Write ι β)) : Nat → β :=
  ws.foldr (fun w d => Function.update d w.2.1 w.2.2) d

@[simp] theorem replay_cons (d : Nat → β) (o : ι) (b : Nat) (x : β) (ws : List (Write ι β)) :
    replay d ((o, b, x) :: ws) = Function.update (replay d ws) b x := rfl

/-- A step that records nothing and is no commit and no crash. -/
def Act.quiet : Act ι β → Bool
  | .logRecord _ => false
  | .writeHead => false
  | .crash => false
  | _ => true

section

variable {s : State ι β} {a : Act ι β} {h : List (Event ι β)}

theorem pending_quiet (ha : a.quiet = true) : pending ((s, a) :: h) = pending h := by
  cases a <;> first | rfl | cases ha

theorem durable_quiet (ha : a.quiet = true) : durable ((s, a) :: h) = durable h := by
  cases a <;> first | rfl | cases ha

theorem pending_record {o : ι} {b : Nat} {x : β} (hop : s.ops o = .writing b x) :
    pending ((s, .logRecord o) :: h) = (o, b, x) :: pending h := by
  simp [pending, recorded, hop]

end

/-! ## The stages -/

structure HeaderOk (L : Layout) (lh : List Nat) : Prop where
  nodup : lh.Nodup
  home : ∀ b ∈ lh, L.Home b

/-- The log area has room for the copies of the blocks. -/
def Room (L : Layout) (lh : List Nat) : Prop := lh.length < L.size

/-- The log area of `d` holds the blocks of `lh` as `D` has them. -/
def Logged (L : Layout) (d : Nat → β) (lh : List Nat) (D : Nat → β) : Prop :=
  ∀ i b, lh[i]? = some b → d (L.slot i) = D b

/-- `d` is `D` on the home blocks outside `lh`. -/
def AgreeOff (L : Layout) (lh : List Nat) (d D : Nat → β) : Prop := ∀ b, L.Home b → b ∉ lh → d b = D b

/-- Disk, cache and log against what is committed (`D`) and what the running operations see (`V`). -/
inductive Stage (L : Layout) (D V : Nat → β) (s : State ι β) : Prop
  /-- Operations run, or the first `tail` blocks have been copied to the log. -/
  | collecting (tail : Nat)
      (hpc : s.pc = .idle ∧ tail = 0 ∨ s.pc = .writeLog tail ∧ tail < s.lh.length ∨
        s.pc = .writeHead ∧ tail = s.lh.length ∧ 0 < tail)
      (hhead : s.disk.head = []) (hdisk : AgreeOff L [] s.disk.block D) (hcache : AgreeOff L [] s.cache V)
      (hclean : AgreeOff L s.lh V D) (hlog : Logged L s.disk.block (s.lh.take tail) V)
      (hlogc : Logged L s.cache (s.lh.take tail) V) (hpin : ∀ b ∈ s.lh, Pinned s.bufs b)
      (hroom : 0 < tail → Room L s.lh)
  /-- The header is on disk and the first `tail` blocks are home. -/
  | installing (tail : Nat)
      (hpc : (s.pc = .install tail ∨ s.pc = .reinstall tail) ∧ tail < s.lh.length ∨
        (s.pc = .clear ∨ s.pc = .reclear) ∧ tail = s.lh.length)
      (hhead : s.disk.head = s.lh) (hseen : AgreeOff L [] V D) (hdisk : AgreeOff L (s.lh.drop tail) s.disk.block D)
      (hcache : AgreeOff L (s.lh.drop tail) s.cache D) (hlog : Logged L s.disk.block s.lh D)
      (hlogc : Logged L s.cache s.lh D) (hroom : Room L s.lh)
  | committed (hpc : s.pc = .committed) (hlh : s.lh = []) (hhead : s.disk.head = [])
      (hdisk : AgreeOff L [] s.disk.block D) (hcache : AgreeOff L [] s.cache D) (hseen : AgreeOff L [] V D)
  | crashed (hpc : s.pc = .readHead) (hlh : s.lh = []) (hhead : HeaderOk L s.disk.head) (hroom : Room L s.disk.head)
      (hdisk : AgreeOff L s.disk.head s.disk.block D) (hlog : Logged L s.disk.block s.disk.head D)
      (hcache : s.cache = s.disk.block) (hseen : AgreeOff L [] V D)

section

variable {L : Layout} {D V : Nat → β} {s s' : State ι β} {lh : List Nat} {b tail : Nat} {x : β}
  {d : Nat → β}

/-! ## The log area and the home blocks -/

theorem Room.ne_slot (hr : Room L lh) {i : Nat} (hi : i < lh.length) (hb : L.Home b) : b ≠ L.slot i := by
  unfold Room at hr
  rcases hb with h | h <;> simp only [Layout.slot] <;> omega

theorem headerOk_nil : HeaderOk L [] := ⟨List.nodup_nil, nofun⟩

theorem room_nil (hL : LOGSIZE ≤ L.size) : Room L [] := (by decide : 0 < LOGSIZE).trans_le hL

theorem lt_of_getElem? (hb : lh[tail]? = some b) : tail < lh.length := (List.getElem?_eq_some_iff.mp hb).1

theorem mem_of_get (hb : lh[tail]? = some b) : b ∈ lh := List.mem_of_getElem? hb

theorem drop_eq_cons (hb : lh[tail]? = some b) : lh.drop tail = b :: lh.drop (tail + 1) := by
  obtain ⟨hlt, rfl⟩ := List.getElem?_eq_some_iff.mp hb
  exact List.drop_eq_getElem_cons hlt

theorem AgreeOff.slot {l : List Nat} (h : AgreeOff L l d D) (hr : Room L lh) (hi : tail < lh.length) :
    AgreeOff L l (Function.update d (L.slot tail) x) D := by
  intro c hc hcl
  rw [Function.update_of_ne (hr.ne_slot hi hc)]
  exact h c hc hcl

theorem Logged.snoc (h : Logged L d (lh.take tail) D) (hb : lh[tail]? = some b) (hx : x = D b) :
    Logged L (Function.update d (L.slot tail) x) (lh.take (tail + 1)) D := by
  intro i c hc
  rw [List.getElem?_take] at hc
  split_ifs at hc with hi
  by_cases hit : i = tail
  · subst hit
    rw [hb] at hc
    cases hc
    rw [Function.update_self, hx]
  · rw [Function.update_of_ne (by simp only [Layout.slot]; omega)]
    refine h i c ?_
    rw [List.getElem?_take, if_pos (by omega), hc]

theorem Logged.home (h : Logged L d lh D) (hr : Room L lh) (hb : L.Home b) :
    Logged L (Function.update d b x) lh D := by
  intro i c hc
  rw [Function.update_of_ne (hr.ne_slot (lt_of_getElem? hc) hb).symm]
  exact h i c hc

theorem AgreeOff.install (h : AgreeOff L (lh.drop tail) d D) (hb : lh[tail]? = some b) (hx : x = D b) :
    AgreeOff L (lh.drop (tail + 1)) (Function.update d b x) D := by
  intro c hc hcl
  rw [Function.update_apply]
  split_ifs with hcb
  · rw [hcb, hx]
  · refine h c hc ?_
    rw [drop_eq_cons hb, List.mem_cons]
    exact fun h => h.elim hcb hcl

theorem agreeOff_refl (lh : List Nat) (d : Nat → β) : AgreeOff L lh d d := fun _ _ _ => rfl

theorem AgreeOff.trans {l : List Nat} {d' d'' : Nat → β} (h : AgreeOff L l d d') (h' : AgreeOff L l d' d'') :
    AgreeOff L l d d'' := fun b hb hl => (h b hb hl).trans (h' b hb hl)

theorem AgreeOff.mono {l l' : List Nat} (h : AgreeOff L l d D) (hl : ∀ b ∈ l, b ∈ l') : AgreeOff L l' d D :=
  fun b hb hn => h b hb fun hm => hn (hl b hm)

/-! ## One step of commit or recovery -/

theorem Stage.congr (hs : Stage L D V s) (hdisk : s'.disk = s.disk) (hcache : s'.cache = s.cache)
    (hpin : ∀ b, Pinned s.bufs b → Pinned s'.bufs b) (hlh : s'.lh = s.lh) (hpc : s'.pc = s.pc) : Stage L D V s' := by
  cases hs with
  | collecting tail h₁ h₂ h₃ h₄ h₅ h₆ h₇ h₈ h₉ =>
    exact .collecting tail (hpc ▸ hlh ▸ h₁) (hdisk ▸ h₂) (hdisk ▸ h₃) (hcache ▸ h₄) (hlh ▸ h₅)
      (hdisk ▸ hlh ▸ h₆) (hcache ▸ hlh ▸ h₇) (fun b hb => hpin b (h₈ b (hlh ▸ hb))) (hlh ▸ h₉)
  | installing tail h₁ h₂ h₃ h₄ h₅ h₆ h₇ h₈ =>
    exact .installing tail (hpc ▸ hlh ▸ h₁) (hdisk ▸ hlh ▸ h₂) h₃ (hdisk ▸ hlh ▸ h₄) (hcache ▸ hlh ▸ h₅)
      (hdisk ▸ hlh ▸ h₆) (hcache ▸ hlh ▸ h₇) (hlh ▸ h₈)
  | committed h₁ h₂ h₃ h₄ h₅ h₆ =>
    exact .committed (hpc ▸ h₁) (hlh ▸ h₂) (hdisk ▸ h₃) (hdisk ▸ h₄) (hcache ▸ h₅) h₆
  | crashed h₁ h₂ h₃ h₄ h₅ h₆ h₇ h₈ =>
    exact .crashed (hpc ▸ h₁) (hlh ▸ h₂) (hdisk ▸ h₃) (hdisk ▸ h₄) (hdisk ▸ h₅) (hdisk ▸ h₆) (hcache ▸ hdisk ▸ h₇) h₈

/-- **A full log is not written**: the first `bread` of `write_log` finds all buffers dirty. -/
theorem Stage.room {l : List (Buf β)} (hs : Stage L D V s) (hL : LOGSIZE ≤ L.size) (hl : HeaderOk L s.lh)
    (hbufs : BufsOk s.disk.block s.bufs) (hpc : s.pc = .writeLog tail)
    (hread : bread s.disk.block (L.slot tail) s.bufs = .ok l) : Room L s.lh := by
  cases hs with
  | collecting t h₁ h₂ h₃ h₄ h₅ h₆ h₇ h₈ h₉ =>
    obtain ⟨rfl, -⟩ : tail = t ∧ t < s.lh.length := by simpa [hpc] using h₁
    by_cases hzero : tail = 0
    · by_contra hfull
      have hslot : L.slot tail ∉ s.lh := by
        intro hin
        have hmax : 30 ≤ L.size := hL
        rcases hl.home _ hin with h | h <;> simp only [Layout.slot] at h <;> omega
      have hpanic := bread_full hbufs hl.nodup h₈ (hL.trans (Nat.not_lt.mp hfull)) hslot
      rw [hread] at hpanic
      cases hpanic
    · exact h₉ (Nat.pos_of_ne_zero hzero)
  | installing t h₁ => simp [hpc] at h₁
  | committed h₁ => simp [hpc] at h₁
  | crashed h₁ => simp [hpc] at h₁

theorem Stage.writeLog (hs : Stage L D V s) (hl : HeaderOk L s.lh) (hroom : Room L s.lh) (hpc : s.pc = .writeLog tail)
    (hb : s.lh[tail]? = some b) (hhead : s'.disk.head = s.disk.head)
    (hdisk : s'.disk.block = Function.update s.disk.block (L.slot tail) (s.cache b))
    (hcache : s'.cache = Function.update s.cache (L.slot tail) (s.cache b))
    (hpin : ∀ c, c ≠ L.slot tail → (Pinned s'.bufs c ↔ Pinned s.bufs c)) (hlh : s'.lh = s.lh)
    (hpc' : s'.pc = if tail + 1 < s.lh.length then .writeLog (tail + 1) else .writeHead) : Stage L D V s' := by
  have hlt := lt_of_getElem? hb
  cases hs with
  | collecting t h₁ h₂ h₃ h₄ h₅ h₆ h₇ h₈ h₉ =>
    obtain ⟨rfl, -⟩ : tail = t ∧ t < s.lh.length := by simpa [hpc] using h₁
    have hx : s.cache b = V b := h₄ b (hl.home b (mem_of_get hb)) nofun
    refine .collecting (tail + 1) ?_ (hhead.trans h₂) (hdisk ▸ h₃.slot hroom hlt) (hcache ▸ h₄.slot hroom hlt) (hlh ▸ h₅)
      (hdisk ▸ hlh ▸ h₆.snoc hb hx) (hcache ▸ hlh ▸ h₇.snoc hb hx) ?_ fun _ => hlh ▸ hroom
    · rw [hlh]
      by_cases hend : tail + 1 < s.lh.length
      · exact .inr (.inl ⟨hpc'.trans (if_pos hend), hend⟩)
      · have hlen : tail + 1 = s.lh.length := by omega
        exact .inr (.inr ⟨hpc'.trans (if_neg hend), hlen, by omega⟩)
    · intro c hc
      rw [hlh] at hc
      exact (hpin c (hroom.ne_slot hlt (hl.home c hc))).mpr (h₈ c hc)
  | installing t h₁ => simp [hpc] at h₁
  | committed h₁ => simp [hpc] at h₁
  | crashed h₁ => simp [hpc] at h₁

/-- **The commit point**: what the operations see is what is committed from here on. -/
theorem Stage.writeHead (hs : Stage L D V s) (hpc : s.pc = .writeHead) (hhead : s'.disk.head = s.lh)
    (hdisk : s'.disk.block = s.disk.block) (hcache : s'.cache = s.cache) (hlh : s'.lh = s.lh) (hpc' : s'.pc = .install 0) :
    Stage L V V s' := by
  cases hs with
  | collecting t h₁ h₂ h₃ h₄ h₅ h₆ h₇ h₈ h₉ =>
    obtain ⟨rfl, hpos⟩ : t = s.lh.length ∧ 0 < t := by simpa [hpc] using h₁
    rw [List.take_length] at h₆ h₇
    refine .installing 0 (.inl ⟨.inl hpc', hlh ▸ hpos⟩) (hhead.trans hlh.symm) (agreeOff_refl _ _) ?_
      (hcache ▸ h₄.mono nofun) (hdisk ▸ hlh ▸ h₆) (hcache ▸ hlh ▸ h₇) (hlh ▸ h₉ hpos)
    intro c hc hn
    rw [hlh] at hn
    rw [hdisk]
    exact (h₃ c hc nofun).trans (h₅ c hc hn).symm
  | installing t h₁ => simp [hpc] at h₁
  | committed h₁ => simp [hpc] at h₁
  | crashed h₁ => simp [hpc] at h₁

theorem Stage.install (hs : Stage L D V s) (hl : HeaderOk L s.lh) {again : Nat → Pc} {after : Pc}
    (hwhich : again = .install ∧ after = .clear ∨ again = .reinstall ∧ after = .reclear)
    (hpc : s.pc = again tail) (hb : s.lh[tail]? = some b) (hhead : s'.disk.head = s.disk.head)
    (hdisk : s'.disk.block = Function.update s.disk.block b (s.cache (L.slot tail)))
    (hcache : s'.cache = Function.update s.cache b (s.cache (L.slot tail))) (hlh : s'.lh = s.lh)
    (hpc' : s'.pc = if tail + 1 < s.lh.length then again (tail + 1) else after) : Stage L D V s' := by
  have hlt := lt_of_getElem? hb
  have hhome := hl.home b (mem_of_get hb)
  have hne : s.pc = .install tail ∨ s.pc = .reinstall tail := by
    rcases hwhich with ⟨rfl, -⟩ | ⟨rfl, -⟩
    · exact .inl hpc
    · exact .inr hpc
  cases hs with
  | collecting t h₁ => rcases hne with h | h <;> simp [h] at h₁
  | installing t h₁ h₂ h₃ h₄ h₅ h₆ h₇ h₈ =>
    obtain ⟨rfl, -⟩ : tail = t ∧ t < s.lh.length := by rcases hne with h | h <;> simpa [h] using h₁
    have hx : s.cache (L.slot tail) = D b := h₇ tail b hb
    refine .installing (tail + 1) ?_ (hhead.trans (h₂.trans hlh.symm)) h₃ (hdisk ▸ hlh ▸ h₄.install hb hx)
      (hcache ▸ hlh ▸ h₅.install hb hx) (hdisk ▸ hlh ▸ h₆.home h₈ hhome) (hcache ▸ hlh ▸ h₇.home h₈ hhome) (hlh ▸ h₈)
    rw [hlh]
    by_cases hend : tail + 1 < s.lh.length
    · rw [if_pos hend] at hpc'
      refine .inl ⟨?_, hend⟩
      rcases hwhich with ⟨rfl, -⟩ | ⟨rfl, -⟩
      · exact .inl hpc'
      · exact .inr hpc'
    · rw [if_neg hend] at hpc'
      refine .inr ⟨?_, by omega⟩
      rcases hwhich with ⟨-, rfl⟩ | ⟨-, rfl⟩
      · exact .inl hpc'
      · exact .inr hpc'
  | committed h₁ => rcases hne with h | h <;> simp [h] at h₁
  | crashed h₁ => rcases hne with h | h <;> simp [h] at h₁

theorem Stage.installed (hs : Stage L D V s) (hpc : s.pc = .clear ∨ s.pc = .reclear) :
    AgreeOff L [] s.disk.block D ∧ AgreeOff L [] s.cache D ∧ AgreeOff L [] V D := by
  cases hs with
  | collecting t h₁ => rcases hpc with h | h <;> simp [h] at h₁
  | installing t h₁ h₂ h₃ h₄ h₅ =>
    obtain rfl : t = s.lh.length := by rcases hpc with h | h <;> simpa [h] using h₁
    rw [List.drop_length] at h₄ h₅
    exact ⟨h₄, h₅, h₃⟩
  | committed h₁ => rcases hpc with h | h <;> simp [h] at h₁
  | crashed h₁ => rcases hpc with h | h <;> simp [h] at h₁

theorem Stage.idle (hpc : s.pc = .idle) (hlh : s.lh = []) (hhead : s.disk.head = [])
    (hdisk : AgreeOff L [] s.disk.block D) (hcache : AgreeOff L [] s.cache D) (hseen : AgreeOff L [] V D) :
    Stage L D V s := by
  have hpin : ∀ b ∈ s.lh, Pinned s.bufs b := by
    intro b hb
    rw [hlh] at hb
    cases hb
  refine .collecting 0 (.inl ⟨hpc, rfl⟩) hhead hdisk ?_ (hlh ▸ hseen) nofun nofun hpin nofun
  intro c hc hn
  exact (hcache c hc hn).trans (hseen c hc hn).symm

/-- **A crash** forgets what the operations saw, and leaves a disk that recovery can work on. -/
theorem Stage.crash (hs : Stage L D V s) (hL : LOGSIZE ≤ L.size) (hl : HeaderOk L s.lh) : Stage L D D s.crash := by
  have hcache : s.crash.cache = s.disk.block := seen_binit s.disk.block
  cases hs with
  | collecting t h₁ h₂ h₃ =>
    refine .crashed rfl rfl ?_ ?_ (h₃.mono nofun) ?_ hcache (agreeOff_refl _ _)
    · show HeaderOk L s.disk.head
      rw [h₂]
      exact headerOk_nil
    · show Room L s.disk.head
      rw [h₂]
      exact room_nil hL
    · show Logged L _ s.disk.head D
      rw [h₂]
      exact nofun
  | installing t h₁ h₂ h₃ h₄ h₅ h₆ h₇ h₈ =>
    refine .crashed rfl rfl ?_ ?_ ?_ ?_ hcache (agreeOff_refl _ _)
    · show HeaderOk L s.disk.head
      rw [h₂]
      exact hl
    · show Room L s.disk.head
      rw [h₂]
      exact h₈
    · show AgreeOff L s.disk.head _ D
      rw [h₂]
      exact h₄.mono fun b hb => List.mem_of_mem_drop hb
    · show Logged L _ s.disk.head D
      rw [h₂]
      exact h₆
  | committed h₁ h₂ h₃ h₄ =>
    refine .crashed rfl rfl ?_ ?_ (h₄.mono nofun) ?_ hcache (agreeOff_refl _ _)
    · show HeaderOk L s.disk.head
      rw [h₃]
      exact headerOk_nil
    · show Room L s.disk.head
      rw [h₃]
      exact room_nil hL
    · show Logged L _ s.disk.head D
      rw [h₃]
      exact nofun
  | crashed h₁ h₂ h₃ h₄ h₅ h₆ h₇ h₈ => exact .crashed rfl rfl h₃ h₄ h₅ h₆ hcache (agreeOff_refl _ _)

theorem Stage.readHead (hs : Stage L D V s) (hpc : s.pc = .readHead) (hdisk : s'.disk = s.disk) (hcache : s'.cache = s.cache)
    (hlh : s'.lh = s.disk.head) (hpc' : s'.pc = recoverPc s.disk.head) : Stage L D V s' ∧ HeaderOk L s'.lh := by
  cases hs with
  | collecting t h₁ => simp [hpc] at h₁
  | installing t h₁ => simp [hpc] at h₁
  | committed h₁ => simp [hpc] at h₁
  | crashed h₁ h₂ h₃ h₄ h₅ h₆ h₇ h₈ =>
    rw [← hcache] at h₇
    rw [← hlh] at h₃ h₄ h₅ h₆ hpc'
    refine ⟨.installing 0 ?_ (hdisk ▸ hlh.symm) h₈ (hdisk ▸ h₅) (h₇ ▸ h₅) (hdisk ▸ h₆) (h₇ ▸ h₆) h₄, h₃⟩
    unfold recoverPc at hpc'
    by_cases hpos : s'.lh.length > 0
    · exact .inl ⟨.inr (hpc'.trans (if_pos hpos)), hpos⟩
    · exact .inr ⟨.inr (hpc'.trans (if_neg hpos)), by omega⟩

theorem Stage.record (hs : Stage L D V s) (hpc : s.pc = .idle) (hpc' : s'.pc = .idle)
    (hdisk : s'.disk = s.disk) (hcache : s'.cache = Function.update s.cache b x)
    (hpin : ∀ c, c ≠ b → (Pinned s'.bufs c ↔ Pinned s.bufs c)) (hself : Pinned s'.bufs b)
    (hlh : s'.lh = if b ∈ s.lh then s.lh else s.lh ++ [b]) :
    Stage L D (Function.update V b x) s' := by
  have hmem : ∀ c, c ∈ s'.lh ↔ c = b ∨ c ∈ s.lh := by
    intro c
    rw [hlh]
    split_ifs with hb
    · exact ⟨.inr, fun h => h.elim (fun hcb => hcb ▸ hb) id⟩
    · rw [List.mem_append, List.mem_singleton, or_comm]
  cases hs with
  | collecting t h₁ h₂ h₃ h₄ h₅ h₆ h₇ h₈ h₉ =>
    refine .collecting 0 (.inl ⟨hpc', rfl⟩) (hdisk ▸ h₂) (hdisk ▸ h₃) ?_ ?_ nofun nofun ?_ nofun
    · intro c hc hn
      rw [hcache, Function.update_apply, Function.update_apply, h₄ c hc hn]
    · intro c hc hn
      rw [hmem, not_or] at hn
      rw [Function.update_of_ne hn.1]
      exact h₅ c hc hn.2
    · intro c hc
      by_cases hcb : c = b
      · exact hcb ▸ hself
      · exact (hpin c hcb).mpr (h₈ c (((hmem c).mp hc).resolve_left hcb))
  | installing t h₁ => simp [hpc] at h₁
  | committed h₁ => simp [hpc] at h₁
  | crashed h₁ => simp [hpc] at h₁

theorem Stage.endOp (hs : Stage L D V s) (hpc : s.pc = .idle) (hpc' : s'.pc = commitPc s.lh)
    (hdisk : s'.disk = s.disk) (hbufs : s'.bufs = s.bufs) (hlh : s'.lh = s.lh) : Stage L D V s' := by
  have hcache : s'.cache = s.cache := by
    unfold State.cache
    rw [hdisk, hbufs]
  cases hs with
  | collecting t h₁ h₂ h₃ h₄ h₅ h₆ h₇ h₈ h₉ =>
    unfold commitPc at hpc'
    split_ifs at hpc' with hpos
    · exact .collecting 0 (.inr (.inl ⟨hpc', hlh ▸ hpos⟩)) (hdisk ▸ h₂) (hdisk ▸ h₃) (hcache ▸ h₄)
        (hlh ▸ h₅) nofun nofun (hlh ▸ hbufs ▸ h₈) nofun
    · have hnil : s.lh = [] := List.eq_nil_of_length_eq_zero (by omega)
      rw [hnil] at h₅
      exact .committed hpc' (hlh.trans hnil) (hdisk ▸ h₂) (hdisk ▸ h₃) (hcache ▸ h₄.trans h₅) h₅
  | installing t h₁ => simp [hpc] at h₁
  | committed h₁ => simp [hpc] at h₁
  | crashed h₁ => simp [hpc] at h₁

/-! ## Operations in log_write -/

/-- The operations between the test and the critical section of `log_write` have the lock of their buffer. -/
structure Writing (L : Layout) (s : State ι β) : Prop where
  home : ∀ o b x, s.ops o = .writing b x → L.Home b
  marked : ∀ b, Marked s.bufs b ↔ ∃ o x, s.ops o = .writing b x
  single : ∀ o o' b x x', s.ops o = .writing b x → s.ops o' = .writing b x' → o = o'

namespace Writing

theorem keep (hw : Writing L s) (hops : ∀ o b x, s'.ops o = .writing b x ↔ s.ops o = .writing b x)
    (hmark : ∀ b, Marked s'.bufs b ↔ Marked s.bufs b) : Writing L s' := by
  refine ⟨?_, ?_, ?_⟩
  · exact fun o b x hop => hw.home o b x ((hops o b x).mp hop)
  · intro b
    rw [hmark, hw.marked]
    simp only [hops]
  · exact fun o o' b x x' ho ho' => hw.single o o' b x x' ((hops o b x).mp ho) ((hops o' b x').mp ho')

theorem none (hops : ∀ o b x, s.ops o ≠ .writing b x) (hmark : ∀ b, ¬ Marked s.bufs b) : Writing L s := by
  refine ⟨?_, ?_, ?_⟩
  · exact fun o b x hop => absurd hop (hops o b x)
  · exact fun b => iff_of_false (hmark b) fun h => h.elim fun o h => h.elim fun x hop => hops o b x hop
  · exact fun o o' b x x' hop => absurd hop (hops o b x)

theorem unmarked (hw : Writing L s) (hs : OpsOk s) (hpc : s.pc ≠ .idle) (b : Nat) : ¬ Marked s.bufs b := by
  intro hb
  obtain ⟨o, x, hop⟩ := (hw.marked b).mp hb
  exact hpc (hs.pc_idle (o := o) (by rw [hop]; trivial))

variable [DecidableEq ι] {o : ι}

theorem setOp (hw : Writing L s) {y : Op β} (ho : ∀ b x, s.ops o ≠ .writing b x) (hy : ∀ b x, y ≠ .writing b x)
    (hops : s'.ops = Function.update s.ops o y) (hbufs : s'.bufs = s.bufs) : Writing L s' := by
  refine hw.keep ?_ fun b => by rw [hbufs]
  intro o' b x
  rw [hops, Function.update_apply]
  split_ifs with h
  · rw [h]
    exact iff_of_false (hy b x) (ho b x)
  · exact Iff.rfl

theorem enter (hw : Writing L s) (ho : ∀ b x, s.ops o ≠ .writing b x) (hb : L.Home b) (hfree : ¬ Marked s.bufs b)
    (hops : s'.ops = Function.update s.ops o (.writing b x)) (hmark : ∀ c, Marked s'.bufs c ↔ Marked s.bufs c ∨ c = b) :
    Writing L s' := by
  have hop : ∀ o' c y, s'.ops o' = .writing c y ↔ (o' = o ∧ c = b ∧ y = x) ∨ s.ops o' = .writing c y := by
    intro o' c y
    rw [hops, Function.update_apply]
    split_ifs with h
    · rw [or_iff_left (h ▸ ho c y)]
      simp [h, eq_comm]
    · simp [h]
  refine ⟨?_, ?_, ?_⟩
  · intro o' c y hc
    rcases (hop o' c y).mp hc with ⟨-, rfl, -⟩ | hc
    · exact hb
    · exact hw.home o' c y hc
  · intro c
    rw [hmark, hw.marked]
    constructor
    · rintro (⟨o', y, hc⟩ | rfl)
      · exact ⟨o', y, (hop o' c y).mpr (.inr hc)⟩
      · exact ⟨o, x, (hop o c x).mpr (.inl ⟨rfl, rfl, rfl⟩)⟩
    · rintro ⟨o', y, hc⟩
      rcases (hop o' c y).mp hc with ⟨-, hcb, -⟩ | hc
      · exact .inr hcb
      · exact .inl ⟨o', y, hc⟩
  · intro o₁ o₂ c y₁ y₂ h₁ h₂
    rcases (hop o₁ c y₁).mp h₁ with ⟨rfl, rfl, -⟩ | h₁
    · rcases (hop o₂ c y₂).mp h₂ with ⟨rfl, -, -⟩ | h₂
      · rfl
      · exact absurd ((hw.marked c).mpr ⟨o₂, y₂, h₂⟩) hfree
    · rcases (hop o₂ c y₂).mp h₂ with ⟨rfl, rfl, -⟩ | h₂
      · exact absurd ((hw.marked c).mpr ⟨o₁, y₁, h₁⟩) hfree
      · exact hw.single o₁ o₂ c y₁ y₂ h₁ h₂

theorem leave (hw : Writing L s) (ho : s.ops o = .writing b x) (hops : s'.ops = Function.update s.ops o .running)
    (hmark : ∀ c, c ≠ b → (Marked s'.bufs c ↔ Marked s.bufs c)) (hself : ¬ Marked s'.bufs b) : Writing L s' := by
  have hop : ∀ o' c y, s'.ops o' = .writing c y ↔ o' ≠ o ∧ s.ops o' = .writing c y := by
    intro o' c y
    rw [hops, Function.update_apply]
    split_ifs with h
    · simp [h]
    · simp [h]
  refine ⟨?_, ?_, ?_⟩
  · exact fun o' c y hc => hw.home o' c y ((hop o' c y).mp hc).2
  · intro c
    by_cases hcb : c = b
    · subst hcb
      refine iff_of_false hself ?_
      rintro ⟨o', y, hc⟩
      obtain ⟨hne, hc⟩ := (hop o' c y).mp hc
      exact hne (hw.single o' o c y x hc ho)
    · rw [hmark c hcb, hw.marked]
      refine exists_congr fun o' => exists_congr fun y => ?_
      rw [hop, iff_and_self]
      rintro hc rfl
      rw [ho] at hc
      cases hc
      exact hcb rfl
  · exact fun o₁ o₂ c y₁ y₂ h₁ h₂ => hw.single o₁ o₂ c y₁ y₂ ((hop o₁ c y₁).mp h₁).2 ((hop o₂ c y₂).mp h₂).2

end Writing

/-! ## Runs -/

/-- The invariant of a run: the header in memory, the buffers, the writes under way, and the stage. -/
structure Sound (L : Layout) (d : Nat → β) (h : List (Event ι β)) (s : State ι β) : Prop where
  header : HeaderOk L s.lh
  bufs : BufsOk s.disk.block s.bufs
  writing : Writing L s
  stage : Stage L (replay d (durable h)) (replay d (pending h ++ durable h)) s

variable {a : Act ι β} {h : List (Event ι β)}

theorem Sound.quiet (hs : Sound L d h s) (ha : a.quiet = true) (hheader : HeaderOk L s'.lh)
    (hbufs : BufsOk s'.disk.block s'.bufs) (hwriting : Writing L s')
    (hstage : ∀ D V, Stage L D V s → Stage L D V s') : Sound L d ((s, a) :: h) s' := by
  refine ⟨hheader, hbufs, hwriting, ?_⟩
  rw [pending_quiet ha, durable_quiet ha]
  exact hstage _ _ hs.stage

theorem Sound.visit {l : List (Buf β)} (hs : Sound L d h s) (hk : Keeps s.disk.block s.bufs l) (ha : a.quiet = true) :
    Sound L d ((s, a) :: h) { s with bufs := l } :=
  hs.quiet ha hs.header hk.ok (hs.writing.keep (fun _ _ _ => Iff.rfl) hk.marked)
    fun _ _ hst => hst.congr rfl hk.seen (fun b => (hk.pinned b).mpr) rfl rfl

theorem Sound.install (hs : Sound L d h s) (hops : OpsOk s) {again : Nat → Pc} {after : Pc} (ha : a.quiet = true)
    (hwhich : again = .install ∧ after = .clear ∨ again = .reinstall ∧ after = .reclear)
    (hpc : s.pc = again tail) (ht : install L s tail again after = .ok s') : Sound L d ((s, a) :: h) s' := by
  obtain ⟨b, l, l', hb, h₁, h₂, rfl⟩ := install_eq_ok ht
  have hne : s.pc ≠ .idle := by
    rw [hpc]
    rcases hwhich with ⟨rfl, -⟩ | ⟨rfl, -⟩ <;> exact fun h => by cases h
  have hno := hs.writing.unmarked hops hne
  obtain ⟨hok, hdisk, hseen, -, hfree⟩ := copy_spec (L.slot tail) b hs.bufs hno h₁ h₂ rfl rfl rfl
  refine hs.quiet ha hs.header hok (hs.writing.keep (fun _ _ _ => Iff.rfl) fun c => ?_) fun _ _ hst => ?_
  · exact iff_of_false (hfree c) (hno c)
  · exact hst.install hs.header hwhich hpc hb rfl hdisk hseen rfl rfl

variable [DecidableEq ι]

theorem Sound.writeLog (hs : Sound L d h s) (hops : OpsOk s) (hL : LOGSIZE ≤ L.size) (ht : Log.step L s .writeLog = .ok s') :
    Sound L d ((s, .writeLog) :: h) s' := by
  obtain ⟨tail, b, l, l', hpc, hb, h₁, h₂, rfl⟩ := writeLog_ok ht
  have hroom := hs.stage.room hL hs.header hs.bufs hpc h₁
  have hno := hs.writing.unmarked hops (by rw [hpc]; exact fun h => by cases h)
  obtain ⟨hok, hdisk, hseen, hpin, hfree⟩ := copy_spec b (L.slot tail) hs.bufs hno h₁ h₂ rfl rfl rfl
  refine hs.quiet rfl hs.header hok (hs.writing.keep (fun _ _ _ => Iff.rfl) fun c => ?_) fun _ _ hst => ?_
  · exact iff_of_false (hfree c) (hno c)
  · exact hst.writeLog hs.header hroom hpc hb rfl hdisk hseen hpin rfl rfl

theorem Sound.logWrite {o : ι} (hs : Sound L d h s) (ht : Log.step L s (.logWrite o b x) = .ok s') :
    Sound L d ((s, .logWrite o b x) :: h) s' := by
  obtain ⟨hop, hb, -, -, -, hbuf, rfl⟩ := logWrite_ok ht
  obtain ⟨z, hz, hzb, htest⟩ := hasBuf_mem hbuf
  obtain ⟨hpos, hlog⟩ := Bool.and_eq_true_iff.mp htest
  obtain ⟨hok, hseen, hpin, hmark⟩ := onBuf_mark hs.bufs hz hzb (of_decide_eq_true hpos)
  have hfree : ¬ Marked s.bufs b := by
    rintro ⟨w, hw, hwb, hwlog⟩
    rw [hs.bufs.distinct.eq hw hz hwb hzb] at hwlog
    rw [hwlog] at hlog
    cases hlog
  have hno : ∀ c y, s.ops o ≠ .writing c y := by
    rw [hop]
    exact nofun
  exact hs.quiet rfl hs.header hok (hs.writing.enter hno hb hfree rfl hmark)
    fun _ _ hst => hst.congr rfl hseen (fun c => (hpin c).mpr) rfl rfl

theorem Sound.logRecord {o : ι} (hs : Sound L d h s) (hops : OpsOk s) (ht : Log.step L s (.logRecord o) = .ok s') :
    Sound L d ((s, .logRecord o) :: h) s' := by
  obtain ⟨b, x, hop, -, rfl⟩ := logRecord_ok ht
  have hidle := hops.pc_idle (o := o) (by rw [hop]; trivial)
  have hl := hs.header
  have hb := hs.writing.home o b x hop
  obtain ⟨hok, hseen, hother, hpin, hfree⟩ := onBuf_logged (y := x) hs.bufs ((hs.writing.marked b).mpr ⟨o, x, hop⟩)
  refine ⟨?_, hok, hs.writing.leave hop rfl (fun c hc => (hother c hc).2) hfree, ?_⟩
  · show HeaderOk L (if b ∈ s.lh then s.lh else s.lh ++ [b])
    split_ifs with hm
    · exact hl
    · refine ⟨?_, ?_⟩
      · rw [List.nodup_append]
        refine ⟨hl.nodup, List.nodup_singleton b, fun c hc c' hc' heq => ?_⟩
        rw [List.mem_singleton.mp hc'] at heq
        exact hm (heq ▸ hc)
      · intro c hc
        rcases List.mem_append.mp hc with hc | hc
        · exact hl.home c hc
        · rw [List.mem_singleton.mp hc]
          exact hb
  · rw [pending_record hop]
    exact hs.stage.record hidle hidle rfl hseen (fun c hc => (hother c hc).1) hpin rfl

/-- **Every step keeps the stages.** -/
theorem Sound.step (hs : Sound L d h s) (hops : OpsOk s) (hL : LOGSIZE ≤ L.size)
    (ht : Log.step L s a = .ok s') : Sound L d ((s, a) :: h) s' := by
  have hl := hs.header
  have hw := hs.writing
  -- the header block is read, and given back
  have hvisit : ∀ {l}, s.pc ≠ .idle → bread s.disk.block L.start s.bufs = .ok l →
    Keeps s.disk.block s.bufs (brelse L.start l) :=
    fun hpc hr => visit_keeps hs.bufs (hw.unmarked hops hpc) hr
  cases a with
  | bread b =>
    obtain ⟨l, hr, rfl⟩ := stepBread_ok ht
    exact hs.visit (bread_keeps hs.bufs hr) rfl
  | brelse b =>
    obtain ⟨hbuf, rfl⟩ := stepBrelse_ok ht
    obtain ⟨z, hz, hzb, hspare⟩ := hasBuf_mem hbuf
    refine hs.visit (brelse_keeps hs.bufs ?_) rfl
    intro w hw hwb hlog
    rw [hs.bufs.distinct.eq hw hz hwb hzb] at hlog ⊢
    have hpos : 0 < z.spare := of_decide_eq_true hspare
    unfold Buf.spare at hpos
    rw [if_pos hlog] at hpos
    omega
  | beginOp o =>
    obtain ⟨hop, -, -, -, rfl⟩ := beginOp_ok ht
    refine hs.quiet rfl hl hs.bufs (hw.setOp (o := o) (y := .running) ?_ nofun rfl rfl) fun _ _ hst =>
      hst.congr rfl rfl (fun _ => id) rfl rfl
    rw [hop]
    exact nofun
  | logWrite o b x => exact hs.logWrite ht
  | logRecord o => exact hs.logRecord hops ht
  | endOp o =>
    obtain ⟨hop, -, hcase⟩ := endOp_ok ht
    have hidle := hops.pc_idle (o := o) (by rw [hop]; trivial)
    have hno : ∀ b x, s.ops o ≠ .writing b x := by
      rw [hop]
      exact nofun
    rcases hcase with ⟨-, rfl⟩ | ⟨-, rfl⟩
    · exact hs.quiet rfl hl hs.bufs (hw.setOp (y := .ended) hno nofun rfl rfl) fun _ _ hst => hst.congr rfl rfl
        (fun _ => id) rfl rfl
    · exact hs.quiet rfl hl hs.bufs (hw.setOp (y := .ended) hno nofun rfl rfl) fun _ _ hst => hst.endOp hidle rfl rfl rfl rfl
  | writeLog => exact hs.writeLog hops hL ht
  | writeHead =>
    obtain ⟨hpc, l, hr, rfl⟩ := writeHead_ok ht
    have hk := hvisit (by rw [hpc]; exact nofun) hr
    exact ⟨hl, hk.ok, hw.keep (fun _ _ _ => Iff.rfl) hk.marked, hs.stage.writeHead hpc rfl rfl hk.seen rfl rfl⟩
  | install =>
    obtain ⟨tail, hpc, ht⟩ := install_ok ht
    exact hs.install hops rfl (.inl ⟨rfl, rfl⟩) hpc ht
  | clear =>
    obtain ⟨hpc, l, hr, rfl⟩ := clear_ok ht
    have hk := hvisit (by rw [hpc]; exact nofun) hr
    refine hs.quiet rfl headerOk_nil hk.ok (hw.keep (fun _ _ _ => Iff.rfl) hk.marked) fun _ _ hst => ?_
    obtain ⟨hdisk, hcache, hseen⟩ := hst.installed (.inl hpc)
    rw [show s.cache = seen s.disk.block (brelse L.start l) from hk.seen.symm] at hcache
    exact .committed rfl rfl rfl hdisk hcache hseen
  | endCommit =>
    obtain ⟨hpc, rfl⟩ := ok_of_ite ht
    refine hs.quiet rfl hl hs.bufs (hw.keep (fun _ _ _ => Iff.rfl) fun _ => Iff.rfl) fun _ _ hst => ?_
    cases hst with
    | collecting t h₁ => simp [hpc] at h₁
    | installing t h₁ => simp [hpc] at h₁
    | committed h₁ h₂ h₃ h₄ h₅ h₆ => exact .idle rfl h₂ h₃ h₄ h₅ h₆
    | crashed h₁ => simp [hpc] at h₁
  | crash =>
    cases ht
    refine ⟨headerOk_nil, bufsOk_binit _, .none ?_ ?_, hs.stage.crash hL hl⟩
    · intro o b x hop
      have hactive : (s.crash.ops o).Active := by
        rw [hop]
        trivial
      exact not_active_crash _ hactive
    · rintro b ⟨z, hz, -, hlog⟩
      rw [List.eq_of_mem_replicate hz] at hlog
      cases hlog
  | readHead =>
    obtain ⟨hpc, l, hr, rfl⟩ := readHead_ok ht
    have hk := hvisit (by rw [hpc]; exact nofun) hr
    have hstage : ∀ D V, Stage L D V s → Stage L D V
        { s with bufs := brelse L.start l, lh := s.disk.head, pc := recoverPc s.disk.head } ∧ HeaderOk L s.disk.head :=
      fun D V hst => hst.readHead hpc rfl hk.seen rfl rfl
    exact hs.quiet rfl (hstage _ _ hs.stage).2 hk.ok (hw.keep (fun _ _ _ => Iff.rfl) hk.marked)
      fun D V hst => (hstage D V hst).1
  | reinstall =>
    obtain ⟨tail, hpc, ht⟩ := reinstall_ok ht
    exact hs.install hops rfl (.inr ⟨rfl, rfl⟩) hpc ht
  | reclear =>
    obtain ⟨hpc, l, hr, rfl⟩ := reclear_ok ht
    have hk := hvisit (by rw [hpc]; exact nofun) hr
    refine hs.quiet rfl headerOk_nil hk.ok (hw.keep (fun _ _ _ => Iff.rfl) hk.marked) fun _ _ hst => ?_
    obtain ⟨hdisk, hcache, hseen⟩ := hst.installed (.inr hpc)
    rw [show s.cache = seen s.disk.block (brelse L.start l) from hk.seen.symm] at hcache
    exact .idle rfl rfl rfl hdisk hcache hseen

theorem LRun.sound (hL : LOGSIZE ≤ L.size) (hr : LRun L d h s) : Sound L d h s := by
  induction hr with
  | start =>
    refine ⟨headerOk_nil, bufsOk_binit d, .none nofun ?_, ?_⟩
    · rintro b ⟨z, hz, -, hlog⟩
      rw [List.eq_of_mem_replicate hz] at hlog
      cases hlog
    · exact .crashed rfl rfl headerOk_nil (room_nil hL) (agreeOff_refl _ _) nofun (seen_binit d) (agreeOff_refl _ _)
  | next hr ht ih => exact ih.step (LRun.opsOk hr) hL ht

end

end Xv6Mlfq.Log
