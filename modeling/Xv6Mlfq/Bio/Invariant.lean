import Xv6Mlfq.Bio.Model

/-!
# The invariant of the buffer cache

`Inv st w` is what holds in every state, where `st` is the data that was last stored to each block: `ProcOk` for every
process says what it knows at its place, `BufOk` for every buffer ties the number of references to the processes, the
lock to `B_VALID`, and the data to `st`; and the disk has the data of every block that no buffer is `Ahead` of. The
frame lemmas say what a step has to show: `Inv.move` for a step that touches no buffer, `Inv.touch` for a step of one
process on one buffer.
-/

namespace Xv6Mlfq.Bio

open Lib

/-! ## The list of buffers -/

section links

variable {h : Heap Unit BRef} {l A B : List BRef} {b : BRef}

theorem linkFront_eq (h : Heap Unit BRef) (b : BRef) : linkFront b h = h.pushFront () b := by
  unfold linkFront setNext setPrev Heap.pushFront
  cases hhead : h.head () with
  | none =>
    ext q <;> simp [hhead, Function.update_apply]
  | some c =>
    ext q <;> simp [hhead, Function.update_apply, eq_comm]

theorem linkFront_takeOut (hn : h.next b ≠ some b) (hp : h.prev b ≠ some b) :
    linkFront b (takeOut b h) = (h.unlink () b).pushFront () b := by
  rw [linkFront_eq]
  unfold takeOut setNext setPrev Heap.unlink Heap.pushFront
  cases hnext : h.next b with
  | none =>
    cases hprev : h.prev b with
    | none => ext q <;> simp [hnext, hprev]
    | some a =>
      have hab : a ≠ b := fun hc => hp (hc ▸ hprev)
      ext q <;> simp [hnext, hprev, Function.update_apply] <;> grind
  | some c =>
    have hcb : c ≠ b := fun hc => hn (hc ▸ hnext)
    cases hprev : h.prev b with
    | none => ext q <;> simp [hnext, hprev, hcb.symm, Function.update_apply] <;> grind
    | some a =>
      have hab : a ≠ b := fun hc => hp (hc ▸ hprev)
      ext q <;> simp [hnext, hprev, hcb.symm, Function.update_apply] <;> grind

theorem update_unit (ls : Unit → List BRef) (l : List BRef) : Function.update ls () l = fun _ => l := by
  funext k
  exact Function.update_self ..

theorem represents_front (hr : Represents h fun _ => A ++ b :: B) :
    Represents (linkFront b (takeOut b h)) fun _ => b :: (A ++ B) := by
  have hnodup := hr.nodup ()
  have hn : h.next b ≠ some b := by
    rw [hr.next () A b B rfl]
    intro hb
    have := List.mem_of_head? hb
    grind
  have hp : h.prev b ≠ some b := by
    rw [hr.prev () A b B rfl]
    intro hb
    have := List.mem_of_getLast? hb
    grind
  rw [linkFront_takeOut hn hp]
  have hout := hr.unlink (k := ()) rfl
  have hfront := hout.pushFront (p := b) (fun k => by rw [update_unit]; grind) ()
  rw [update_unit, update_unit] at hfront
  exact hfront

theorem represents_binit : Represents binitLinks fun _ => (List.finRange NBUF).reverse := by
  have key : ∀ (bs l : List BRef) (h : Heap Unit BRef), (bs ++ l).Nodup → Represents h (fun _ => l) →
      Represents (bs.foldl (fun h b => linkFront b h) h) fun _ => bs.reverse ++ l := by
    intro bs
    induction bs with
    | nil => exact fun l h _ hr => hr
    | cons b bs ih =>
      intro l h hnodup hr
      have hfront := hr.pushFront (p := b) (fun _ => by grind) ()
      rw [update_unit, ← linkFront_eq] at hfront
      have := ih (b :: l) _ (by grind) hfront
      simpa using this
  have hall := key (List.finRange NBUF) [] _ (by simpa using List.nodup_finRange NBUF) represents_nil
  rw [List.append_nil] at hall
  exact hall

end links

/-! ## The invariant -/

namespace Pc

/-- The buffer that the process has a reference to, but not the lock of. -/
def owes : Pc → Option BRef
  | .lock _ b => some b
  | .relse b => some b
  | _ => none

/-- The buffer that the process is working on, with the lock. -/
def uses : Pc → Option BRef
  | .test _ b => some b
  | .iderw _ b => some b
  | .wait _ b => some b
  | .ret _ b => some b
  | _ => none

/-- The buffer that `bread` has found, and its block. -/
def target : Pc → Option (Nat × BRef)
  | .lock n b => some (n, b)
  | .test n b => some (n, b)
  | .iderw (.bread n) b => some (n, b)
  | .wait (.bread n) b => some (n, b)
  | .ret n b => some (n, b)
  | _ => none

/-- The buffer that `bread` is reading from the disk. -/
def fetches : Pc → Option BRef
  | .test _ b => some b
  | .iderw (.bread _) b => some b
  | .wait (.bread _) b => some b
  | _ => none

/-- The buffer that the process waits for in `iderw`. -/
def waits : Pc → Option BRef
  | .wait _ b => some b
  | _ => none

def scans : Pc → Bool
  | .find _ _ => true
  | .recycle _ _ => true
  | _ => false

end Pc

variable {ι : Type} [DecidableEq ι] [Fintype ι]

def World.Carries (w : World ι) (b : BRef) (n : Nat) : Prop := (w.buf b).dev = ROOTDEV ∧ (w.buf b).blockno = n

/-- The references to buffer `b` without its lock. -/
def owed (pc : ι → Pc) (b : BRef) : Nat := ∑ t, if (pc t).owes = some b then 1 else 0

/-- What holds for process `t` at the place `p`. -/
structure ProcOk (w : World ι) (t : ι) (p : Pc) : Prop where
  mutex : p.scans = true → w.bcache = some t
  find : ∀ n c, p = .find n c → ∀ l, Represents w.links (fun _ => l) →
    ∃ A B, l = A ++ B ∧ c = B.head? ∧ ∀ b ∈ A, ¬ w.Carries b n
  recycle : ∀ n c, p = .recycle n c → ∀ b, ¬ w.Carries b n
  target : ∀ n b, p.target = some (n, b) → w.Carries b n
  uses : ∀ b, p.uses = some b → w.Holding t b

/-- What holds for a buffer, where `st` is the data that was last stored to each block. -/
structure BufOk (st : Nat → Fs.Block) (w : World ι) (b : BRef) : Prop where
  refs : (w.buf b).refcnt = (if (w.buf b).lock = none then 0 else 1) + owed w.pc b
  held : ∀ t, w.Holding t b → (w.buf b).dev = ROOTDEV ∧ ((w.buf b).valid = true ∨ (w.pc t).fetches = some b)
  dirty : (w.buf b).dirty = true → (w.buf b).dev = ROOTDEV ∧ (w.buf b).valid = true
  pending : w.pending b = true → (w.buf b).valid = true ∧ (w.buf b).lock ≠ none
  data : (w.buf b).dev = ROOTDEV → (w.buf b).valid = true → (w.buf b).data = st (w.buf b).blockno
  queued : b ∈ w.idequeue → ((w.buf b).dirty = true ∨ (w.buf b).valid = false) ∧
    ∃ t, w.Holding t b ∧ (w.pc t).waits = some b

/-- The data of the buffer may differ from what is on the disk. -/
def World.Ahead (w : World ι) (b : BRef) : Prop := (w.buf b).dirty = true ∨ w.pending b = true

/-- The invariant without the request that the disk is working on. -/
structure Core (st : Nat → Fs.Block) (w : World ι) : Prop where
  ring : ∃ l, l.Perm (List.finRange NBUF) ∧ Represents w.links fun _ => l
  proc : ∀ t, ProcOk w t (w.pc t)
  buf : ∀ b, BufOk st w b
  unique : ∀ b c n, w.Carries b n → w.Carries c n → b = c
  disk : ∀ n, (∀ b, w.Carries b n → ¬ w.Ahead b) → w.disk n = st n
  queue : w.idequeue.Nodup

structure Inv (st : Nat → Fs.Block) (w : World ι) : Prop extends Core st w where
  head : ∀ b, w.idequeue.head? = some b → (w.buf b).dirty = true → w.disk (w.buf b).blockno = (w.buf b).data

section frames

variable {st : Nat → Fs.Block} {w w' : World ι} {t s : ι} {p q : Pc} {b c : BRef} {n : Nat}

omit [DecidableEq ι] [Fintype ι] in
theorem target_cases (h : p.target = some (n, b)) : p.owes = some b ∨ p.uses = some b := by
  cases p with
  | lock n' b' => simp_all [Pc.target, Pc.owes]
  | test n' b' => simp_all [Pc.target, Pc.uses]
  | ret n' b' => simp_all [Pc.target, Pc.uses]
  | iderw k b' => cases k <;> simp_all [Pc.target, Pc.uses]
  | wait k b' => cases k <;> simp_all [Pc.target, Pc.uses]
  | _ => cases h

theorem owed_update (pc : ι → Pc) (t : ι) (p : Pc) (b : BRef) :
    owed (Function.update pc t p) b + (if (pc t).owes = some b then 1 else 0) =
      owed pc b + if p.owes = some b then 1 else 0 :=
  sum_update pc (fun p => if p.owes = some b then 1 else 0) t p

theorem owed_gain {f : ι → Pc} (hp : (f t).owes = none) (hp' : q.owes = some b) :
    owed (Function.update f t q) b = owed f b + 1 := by
  have := owed_update f t q b
  rw [hp, hp', if_neg nofun, if_pos rfl] at this
  omega

theorem owed_lose {f : ι → Pc} (hp : (f t).owes = some b) (hp' : q.owes = none) :
    owed (Function.update f t q) b + 1 = owed f b := by
  have := owed_update f t q b
  rw [hp, hp', if_pos rfl, if_neg nofun] at this
  omega

theorem owed_other {f : ι → Pc} (hp : (f t).owes ≠ some c) (hp' : q.owes ≠ some c) :
    owed (Function.update f t q) c = owed f c := by
  have := owed_update f t q c
  rwa [if_neg hp, if_neg hp'] at this

omit [DecidableEq ι] in
theorem owed_pos {pc : ι → Pc} (h : (pc t).owes = some b) : 0 < owed pc b := by
  refine Finset.sum_pos' (fun _ _ => Nat.zero_le _) ⟨t, Finset.mem_univ t, ?_⟩
  rw [if_pos h]
  exact Nat.one_pos

omit [DecidableEq ι] in
theorem BufOk.unused (h : BufOk st w b) (hr : (w.buf b).refcnt = 0) :
    (w.buf b).lock = none ∧ ∀ t, (w.pc t).owes ≠ some b := by
  have hrefs := h.refs
  rw [hr] at hrefs
  refine ⟨?_, fun t ht => ?_⟩
  · by_contra hl
    rw [if_neg hl] at hrefs
    omega
  · have := owed_pos ht
    omega

omit [DecidableEq ι] in
theorem BufOk.not_queued (h : BufOk st w b) (ht : w.Holding t b) (hp : (w.pc t).waits ≠ some b) : b ∉ w.idequeue := by
  intro hb
  obtain ⟨-, s, hs, hw⟩ := h.queued hb
  obtain rfl : s = t := Option.some.inj (hs.symm.trans ht)
  exact hp hw

omit [DecidableEq ι] in
theorem BufOk.not_queued_of_unlocked (h : BufOk st w b) (hl : (w.buf b).lock = none) : b ∉ w.idequeue := by
  intro hb
  obtain ⟨-, s, hs, -⟩ := h.queued hb
  exact absurd (hl.symm.trans hs) nofun

theorem BufOk.frame {r : Nat} {st' : Nat → Fs.Block}
    (hst : (w.buf c).dev = ROOTDEV → st' (w.buf c).blockno = st (w.buf c).blockno)
    (h : BufOk st w c) (hbuf : w'.buf c = { w.buf c with refcnt := r })
    (hpc : w'.pc = Function.update w.pc t q) (hpending : w'.pending c = w.pending c)
    (hqueue : c ∈ w'.idequeue → c ∈ w.idequeue)
    (hrefs : r = (if (w.buf c).lock = none then 0 else 1) + owed w'.pc c)
    (hfetch : (w.pc t).fetches = some c → q.fetches = some c ∨ (w.buf c).valid = true)
    (hwait : (w.pc t).waits = some c → q.waits = some c ∨ c ∉ w'.idequeue) : BufOk st' w' c := by
  have hhold : ∀ s, w'.Holding s c ↔ w.Holding s c := fun s => by
    unfold World.Holding
    rw [hbuf]
  refine ⟨?_, fun s hs => ?_, ?_, ?_, ?_, fun hc => ?_⟩
  · rw [hbuf]
    exact hrefs
  · obtain ⟨hdev, hv⟩ := h.held s ((hhold s).mp hs)
    rw [hbuf, hpc, Function.update_apply]
    refine ⟨hdev, ?_⟩
    split_ifs with hst
    · rcases hv with hv | hv
      · exact .inl hv
      · exact (hfetch (hst ▸ hv)).symm
    · exact hv
  · rw [hbuf]
    exact h.dirty
  · rw [hbuf, hpending]
    exact h.pending
  · rw [hbuf]
    exact fun hd hv => (h.data hd hv).trans (hst hd).symm
  · obtain ⟨hf, s, hs, hw⟩ := h.queued (hqueue hc)
    rw [hbuf]
    refine ⟨hf, s, (hhold s).mpr hs, ?_⟩
    rw [hpc, Function.update_apply]
    split_ifs with hst
    · exact (hwait (hst ▸ hw)).resolve_right fun hno => hno hc
    · exact hw

omit [DecidableEq ι] [Fintype ι] in
theorem ProcOk.frame (h : ProcOk w s p) (hcarry : ∀ b n, w'.Carries b n ↔ w.Carries b n)
    (hscan : p.scans = true → w'.bcache = some s ∧ w'.links = w.links)
    (hhold : ∀ b, w.Holding s b → p.uses = some b → w'.Holding s b) : ProcOk w' s p := by
  refine ⟨fun hs => (hscan hs).1, fun n c hp l hl => ?_, fun n c hp b => ?_, fun n b hp => ?_, fun b hp => ?_⟩
  · rw [(hscan (by rw [hp]; rfl)).2] at hl
    obtain ⟨A, B, hAB, hc, hA⟩ := h.find n c hp l hl
    exact ⟨A, B, hAB, hc, fun b hb hcar => hA b hb ((hcarry b n).mp hcar)⟩
  · rw [hcarry]
    exact h.recycle n c hp b
  · rw [hcarry]
    exact h.target n b hp
  · exact hhold b (h.uses b hp) hp

end frames

/-! ## Moves and touches -/

section steps

variable {st : Nat → Fs.Block} {w w' : World ι} {t : ι} {q : Pc} {b : BRef} {n : Nat}

omit [Fintype ι] in
@[simp] theorem goto_pc_self (w : World ι) (t : ι) (p : Pc) : (w.goto t p).pc t = p := Function.update_self ..

omit [Fintype ι] in
theorem goto_pc_ne (w : World ι) {s t : ι} (hs : s ≠ t) (p : Pc) : (w.goto t p).pc s = w.pc s :=
  Function.update_of_ne hs _ _

theorem Inv.move (h : Inv st w) (t : ι) (q : Pc) (x : Option ι) (howes : q.owes = (w.pc t).owes)
    (hfetch : ∀ c, (w.pc t).fetches = some c → q.fetches = some c ∨ (w.buf c).valid = true)
    (hwait : ∀ c, (w.pc t).waits = some c → q.waits = some c ∨ c ∉ w.idequeue)
    (hx : ∀ s, s ≠ t → (w.pc s).scans = true → x = some s)
    (hproc : ProcOk ({ w with bcache := x }.goto t q) t q) : Inv st ({ w with bcache := x }.goto t q) := by
  refine ⟨⟨h.ring, fun s => ?_, fun c => ?_, h.unique, h.disk, h.queue⟩, h.head⟩
  · by_cases hs : s = t
    · subst hs
      rw [goto_pc_self]
      exact hproc
    · rw [goto_pc_ne _ hs]
      exact (h.proc s).frame (fun _ _ => Iff.rfl) (fun hsc => ⟨hx s hs hsc, rfl⟩) fun _ hb _ => hb
  · have hrefs := (h.buf c).refs
    have hcount := owed_update w.pc t q c
    rw [howes] at hcount
    refine BufOk.frame (t := t) (q := q) (r := (w.buf c).refcnt) (fun _ => rfl) (h.buf c) rfl rfl rfl id ?_ (hfetch c)
      (hwait c)
    show _ = _ + owed (Function.update w.pc t q) c
    omega

theorem Inv.moveFree (h : Inv st w) (t : ι) (q : Pc) (x : Option ι) (howes : q.owes = (w.pc t).owes)
    (hf : (w.pc t).fetches = none) (hw : (w.pc t).waits = none)
    (hx : ∀ s, s ≠ t → (w.pc s).scans = true → x = some s)
    (hproc : ProcOk ({ w with bcache := x }.goto t q) t q) : Inv st ({ w with bcache := x }.goto t q) := by
  refine h.move t q x howes (fun c hc => ?_) (fun c hc => ?_) hx hproc
  · rw [hf] at hc
    cases hc
  · rw [hw] at hc
    cases hc

/-- Process `t` goes to `p` and writes the record of buffer `b`. -/
def World.touch (w : World ι) (t : ι) (p : Pc) (b : BRef) (y : Buf ι) (x : Option ι) (L : Heap Unit BRef)
    (P : BRef → Bool) : World ι :=
  { w with
    buf := Function.update w.buf b y
    pc := Function.update w.pc t p
    bcache := x
    links := L
    pending := P }

section touch

variable {y : Buf ι} {x : Option ι} {L : Heap Unit BRef} {P : BRef → Bool}

omit [Fintype ι] in
@[simp] theorem touch_self : (w.touch t q b y x L P).buf b = y := Function.update_self ..

omit [Fintype ι] in
theorem touch_ne {c : BRef} (hc : c ≠ b) : (w.touch t q b y x L P).buf c = w.buf c := Function.update_of_ne hc _ _

/-- A step of process `t` on buffer `b` that leaves the block of the buffer. If it stores to the block, the buffer is
ahead of the disk. -/
theorem Inv.touch {st' : Nat → Fs.Block} (h : Inv st w)
    (hst : st' = st ∨ (w.buf b).dev = ROOTDEV ∧ (y.dirty = true ∨ P b = true) ∧
      ∀ m, m ≠ (w.buf b).blockno → st' m = st m)
    (hpending : ∀ c, c ≠ b → P c = w.pending c) (hdev : y.dev = (w.buf b).dev)
    (hno : y.blockno = (w.buf b).blockno) (hring : ∃ l, l.Perm (List.finRange NBUF) ∧ Represents L fun _ => l)
    (hscan : ∀ s, s ≠ t → (w.pc s).scans = true → x = some s ∧ L = w.links)
    (hlock : ∀ s, s ≠ t → (w.buf b).lock = some s → y.lock = some s)
    (hahead : w.Ahead b → y.dirty = true ∨ P b = true)
    (hhead : b ∈ w.idequeue → y.dirty = (w.buf b).dirty ∧ y.data = (w.buf b).data)
    (howes : ∀ c, (w.pc t).owes = some c → c = b) (howes' : ∀ c, q.owes = some c → c = b)
    (hfetch : ∀ c, (w.pc t).fetches = some c → c = b) (hwait : ∀ c, (w.pc t).waits = some c → c = b)
    (hself : BufOk st' (w.touch t q b y x L P) b) (hproc : ProcOk (w.touch t q b y x L P) t q) :
    Inv st' (w.touch t q b y x L P) := by
  have hcarry : ∀ c n, (w.touch t q b y x L P).Carries c n ↔ w.Carries c n := by
    intro c n
    unfold World.Carries
    by_cases hcb : c = b
    · rw [hcb, touch_self, hdev, hno]
    · rw [touch_ne hcb]
  refine ⟨⟨hring, fun s => ?_, fun c => ?_, fun c d n hcn hdn => ?_, fun n hn => ?_, h.queue⟩, fun c hcq hd => ?_⟩
  · by_cases hs : s = t
    · subst hs
      rw [show (w.touch s q b y x L P).pc s = q from Function.update_self ..]
      exact hproc
    · rw [show (w.touch t q b y x L P).pc s = w.pc s from Function.update_of_ne hs _ _]
      refine (h.proc s).frame hcarry (hscan s hs) fun c hcs _ => ?_
      unfold World.Holding at hcs ⊢
      by_cases hcb : c = b
      · rw [hcb] at hcs ⊢
        rw [touch_self]
        exact hlock s hs hcs
      · rwa [touch_ne hcb]
  · by_cases hcb : c = b
    · rw [hcb]
      exact hself
    · have hrefs := (h.buf c).refs
      have hcount := owed_other (f := w.pc) (fun heq => hcb (howes c heq)) fun heq => hcb (howes' c heq)
      refine BufOk.frame (t := t) (q := q) (r := (w.buf c).refcnt) (fun hcd => ?_) (h.buf c) (touch_ne hcb) rfl
        (hpending c hcb) id ?_ (fun hf => absurd (hfetch c hf) hcb) fun hw => absurd (hwait c hw) hcb
      · rcases hst with rfl | ⟨hbd, -, hst⟩
        · rfl
        · exact hst _ fun heq => hcb (h.unique c b _ ⟨hcd, heq⟩ ⟨hbd, rfl⟩)
      · show _ = _ + owed (Function.update w.pc t q) c
        omega
  · exact h.unique c d n ((hcarry c n).mp hcn) ((hcarry d n).mp hdn)
  · have hsame : st' n = st n := by
      rcases hst with rfl | ⟨hbd, hba, hst⟩
      · rfl
      · refine hst n fun heq => hn b ((hcarry b n).mpr ⟨hbd, heq.symm⟩) ?_
        unfold World.Ahead
        rw [touch_self]
        exact hba
    rw [hsame]
    refine h.disk n fun c hcn ha => hn c ((hcarry c n).mpr hcn) ?_
    unfold World.Ahead at ha ⊢
    by_cases hcb : c = b
    · rw [hcb] at ha ⊢
      rw [touch_self]
      exact hahead ha
    · rw [touch_ne hcb]
      rw [← hpending c hcb] at ha
      exact ha
  · by_cases hcb : c = b
    · rw [hcb] at hcq hd ⊢
      obtain ⟨hdirty, hdata⟩ := hhead (List.mem_of_head? hcq)
      rw [touch_self] at hd ⊢
      rw [hno, hdata]
      exact h.head b hcq (hdirty ▸ hd)
    · rw [touch_ne hcb] at hd ⊢
      exact h.head c hcq hd

end touch

end steps

end Xv6Mlfq.Bio
