import Xv6Mlfq.Lib.Run
import Xv6Mlfq.Lib.Slots

/-!
# The buffers that the log works with (bio.c)

The `NBUF` buffers in the order of the list, from `bcache.head.next` to `bcache.head.prev`: a buffer that nobody uses
any more goes to the front, and `bget` recycles from the end. A buffer with references or with `B_DIRTY` is not
recycled; `bget` panics when all are in use. What a process sees of a block (`seen`) is its buffer, or the disk if it has
none; taking and giving back references does not change that (`bread_keeps`, `brelse_keeps`), because a buffer that is
recycled is clean. When `NBUF` blocks are pinned, no other block can be read (`bread_full`).

The sleep lock of a buffer is kept only for the caller of a `log_write` that is under way (`logging`).
-/

namespace Xv6Mlfq.Log

open Lib

/-- Max blocks that an operation writes (param.h). -/
abbrev MAXOPBLOCKS : Nat := 10
abbrev NBUF : Nat := MAXOPBLOCKS * 3

inductive Stop where
  | panic (msg : String)
  /-- `log.lh.block[i]` beyond the array. -/
  | outOfRange
  | notEnabled
  deriving DecidableEq, Repr

/-- `struct buf`: its block with the data, once it has one, and `B_DIRTY` among its flags. -/
structure Buf (β : Type) where
  held : Option (Nat × β)
  refcnt : Nat
  dirty : Bool
  logging : Bool

variable {β : Type}

def Buf.blockno (x : Buf β) : Option Nat := x.held.map Prod.fst

/-- `b->refcnt == 0 && (b->flags & B_DIRTY) == 0`. -/
def Buf.free (x : Buf β) : Bool := decide (x.refcnt = 0) && !x.dirty

def binit : List (Buf β) := List.replicate NBUF ⟨none, 0, false, false⟩

/-- `bread`, from a disk with the contents `d`. -/
def bread (d : Nat → β) (b : Nat) (l : List (Buf β)) : Except Stop (List (Buf β)) :=
  match pick (fun x => decide (x.blockno = some b)) l with
  | some (A, x, B) => .ok (A ++ { x with refcnt := x.refcnt + 1 } :: B)
  | none =>
    match pick Buf.free l.reverse with
    | some (B, _, A) => .ok (A.reverse ++ ⟨some (b, d b), 1, false, false⟩ :: B.reverse)
    | none => .error (.panic "bget: no buffers")

def brelse (b : Nat) (l : List (Buf β)) : List (Buf β) :=
  match pick (fun x => decide (x.blockno = some b)) l with
  | some (A, x, B) =>
    if x.refcnt - 1 = 0 then { x with refcnt := 0 } :: (A ++ B) else A ++ { x with refcnt := x.refcnt - 1 } :: B
  | none => l

def onBuf (b : Nat) (f : Buf β → Buf β) (l : List (Buf β)) : List (Buf β) :=
  match pick (fun x => decide (x.blockno = some b)) l with
  | some (A, x, B) => A ++ f x :: B
  | none => l

def Buf.written (b : Nat) (y : β) (x : Buf β) : Buf β := { x with held := some (b, y), dirty := false }

/-- The buffer after a `log_write` of new data. -/
def Buf.logged (b : Nat) (y : β) (x : Buf β) : Buf β := { x with held := some (b, y), dirty := true, logging := false }

def seen (d : Nat → β) (l : List (Buf β)) (b : Nat) : β :=
  ((slotOf Buf.blockno l b).bind Buf.held).elim (d b) Prod.snd

/-! ## What the buffers keep -/

/-- No block has two buffers, and a buffer that is not dirty has what is on the disk. -/
structure BufsOk (d : Nat → β) (l : List (Buf β)) : Prop where
  length : l.length = NBUF
  distinct : DistinctKeys Buf.blockno l
  clean : ∀ x ∈ l, x.dirty = false → ∀ b y, x.held = some (b, y) → y = d b
  logging : ∀ x ∈ l, x.logging = true → 0 < x.refcnt

def Pinned (l : List (Buf β)) (b : Nat) : Prop := ∃ x ∈ l, x.blockno = some b ∧ x.dirty = true

def Marked (l : List (Buf β)) (b : Nat) : Prop := ∃ x ∈ l, x.blockno = some b ∧ x.logging = true

variable {d d' : Nat → β} {l l' R : List (Buf β)} {x x' : Buf β} {b c : Nat} {y : β}

theorem blockno_eq (h : x.held = some (b, y)) : x.blockno = some b := by
  unfold Buf.blockno
  rw [h]
  rfl

theorem held_of_blockno (h : x.blockno = some b) : ∃ y, x.held = some (b, y) := by
  obtain ⟨⟨b', y⟩, hx, rfl⟩ := Option.map_eq_some_iff.mp h
  exact ⟨y, hx⟩

theorem bufsOk_binit (d : Nat → β) : BufsOk d binit := by
  have hmem : ∀ x ∈ (binit : List (Buf β)), x = ⟨none, 0, false, false⟩ := fun x hx => List.eq_of_mem_replicate hx
  refine ⟨List.length_replicate, ?_, ?_, ?_⟩
  · have hnone : ((binit : List (Buf β)).filterMap Buf.blockno) = [] := by
      rw [List.filterMap_eq_nil_iff]
      intro x hx
      rw [hmem x hx]
      rfl
    unfold DistinctKeys
    rw [hnone]
    exact List.nodup_nil
  · intro x hx _ b y hb
    rw [hmem x hx] at hb
    cases hb
  · intro x hx hlog
    rw [hmem x hx] at hlog
    cases hlog

theorem seen_binit (d : Nat → β) : seen d binit = d := by
  funext b
  have hnone : slotOf Buf.blockno (binit : List (Buf β)) b = none := by
    rw [slotOf_eq_none, mem_keys]
    rintro ⟨x, hx, hb⟩
    rw [List.eq_of_mem_replicate hx] at hb
    cases hb
  unfold seen
  rw [hnone]
  rfl

theorem seen_cons (d : Nat → β) (x : Buf β) (R : List (Buf β)) (b : Nat) :
    seen d (x :: R) b = if x.blockno = some b then x.held.elim (d b) Prod.snd else seen d R b := by
  unfold seen
  rw [slotOf_cons]
  split_ifs
  · rfl
  · rfl

theorem seen_held (hx : x.held = some (b, y)) (d : Nat → β) (R : List (Buf β)) (c : Nat) :
    seen d (x :: R) c = if c = b then y else seen d R c := by
  rw [seen_cons, blockno_eq hx]
  by_cases hcb : c = b
  · rw [if_pos hcb, if_pos (congrArg some hcb.symm), hx]
    rfl
  · rw [if_neg hcb, if_neg fun hc => hcb (Option.some.inj hc).symm]

theorem seen_perm (h : DistinctKeys Buf.blockno l) (hl : l.Perm l') (d : Nat → β) (b : Nat) : seen d l b = seen d l' b := by
  unfold seen
  rw [h.slotOf_perm hl]

theorem seen_absent (h : b ∉ l.filterMap Buf.blockno) (d : Nat → β) : seen d l b = d b := by
  unfold seen
  rw [slotOf_eq_none.mpr h]
  rfl

/-! ## One buffer is replaced -/

namespace BufsOk

theorem swap (h : BufsOk d l) (hl : l.Perm (x :: R)) (hl' : l'.Perm (x' :: R))
    (hnew : ∀ b, x'.blockno = some b → b ∉ R.filterMap Buf.blockno)
    (hclean : x'.dirty = false → ∀ b y, x'.held = some (b, y) → y = d' b)
    (hlog : x'.logging = true → 0 < x'.refcnt) (hdisk : ∀ b ∈ R.filterMap Buf.blockno, d' b = d b) : BufsOk d' l' := by
  have hmem : ∀ z ∈ l', z = x' ∨ z ∈ R ∧ z ∈ l := by
    intro z hz
    rcases List.mem_cons.mp (hl'.mem_iff.mp hz) with heq | hR
    · exact .inl heq
    · exact .inr ⟨hR, hl.mem_iff.mpr (List.mem_cons_of_mem _ hR)⟩
  refine ⟨?_, ?_, ?_, ?_⟩
  · rw [hl'.length_eq, List.length_cons, ← h.length, hl.length_eq, List.length_cons]
  · exact ((h.distinct.perm hl).rest.cons hnew).perm hl'.symm
  · intro z hz hd b y hb
    rcases hmem z hz with rfl | ⟨hR, hzl⟩
    · exact hclean hd b y hb
    · rw [hdisk b (mem_keys.mpr ⟨z, hR, blockno_eq hb⟩)]
      exact h.clean z hzl hd b y hb
  · intro z hz hz'
    rcases hmem z hz with rfl | ⟨-, hzl⟩
    · exact hlog hz'
    · exact h.logging z hzl hz'

theorem notMem (h : BufsOk d l) (hl : l.Perm (x :: R)) (hx : x.blockno = some b) : b ∉ R.filterMap Buf.blockno :=
  (h.distinct.perm hl).notMem hx

end BufsOk

/-- A property of some buffer does not depend on one that has it before and afterwards or never. -/
theorem exists_swap {P : Buf β → Prop} (hl : l.Perm (x :: R)) (hl' : l'.Perm (x' :: R)) (hx : P x' ↔ P x) :
    (∃ z ∈ l', P z) ↔ ∃ z ∈ l, P z := by
  have hcons : ∀ {l : List (Buf β)} {x : Buf β}, l.Perm (x :: R) → ((∃ z ∈ l, P z) ↔ P x ∨ ∃ z ∈ R, P z) := by
    intro l x hl
    simp only [hl.mem_iff, List.mem_cons, exists_eq_or_imp]
  rw [hcons hl, hcons hl', hx]

theorem exists_swap_other {P : Buf β → Prop} (hl : l.Perm (x :: R)) (hl' : l'.Perm (x' :: R))
    (hx : x.blockno = some b) (hx' : x'.blockno = some b) (hc : c ≠ b) :
    (∃ z ∈ l', z.blockno = some c ∧ P z) ↔ ∃ z ∈ l, z.blockno = some c ∧ P z := by
  have hother : ∀ {z : Buf β}, z.blockno = some b → ¬ (z.blockno = some c ∧ P z) :=
    fun hz hP => hc (Option.some.inj (hP.1.symm.trans hz))
  exact exists_swap hl hl' (iff_of_false (hother hx') (hother hx))

/-- What is seen does not change, and neither does what is pinned or being logged. -/
structure Keeps (d : Nat → β) (l l' : List (Buf β)) : Prop where
  ok : BufsOk d l'
  seen : seen d l' = seen d l
  pinned : ∀ b, Pinned l' b ↔ Pinned l b
  marked : ∀ b, Marked l' b ↔ Marked l b

theorem BufsOk.keeps (h : BufsOk d l) : Keeps d l l := ⟨h, rfl, fun _ => Iff.rfl, fun _ => Iff.rfl⟩

theorem Keeps.trans {l'' : List (Buf β)} (h : Keeps d l l') (h' : Keeps d l' l'') : Keeps d l l'' :=
  ⟨h'.ok, h'.seen.trans h.seen, fun b => (h'.pinned b).trans (h.pinned b), fun b => (h'.marked b).trans (h.marked b)⟩

theorem keeps_refcnt {k : Nat} (h : BufsOk d l) (hl : l.Perm (x :: R)) (hl' : l'.Perm ({ x with refcnt := k } :: R))
    (hlog : x.logging = true → 0 < k) : Keeps d l l' := by
  have hx : x ∈ l := hl.mem_iff.mpr List.mem_cons_self
  have hok : BufsOk d l' := h.swap hl hl' (fun b hb => h.notMem hl hb) (fun hd b y hb => h.clean x hx hd b y hb) hlog
    fun _ _ => rfl
  refine ⟨hok, ?_, fun b => exists_swap hl hl' Iff.rfl, fun b => exists_swap hl hl' Iff.rfl⟩
  funext b
  rw [seen_perm hok.distinct hl', seen_perm h.distinct hl, seen_cons, seen_cons]
  rfl

theorem keeps_recycle (h : BufsOk d l) (hl : l.Perm (x :: R)) (hl' : l'.Perm (⟨some (b, d b), 1, false, false⟩ :: R))
    (hfree : x.free = true) (hb : b ∉ l.filterMap Buf.blockno) : Keeps d l l' := by
  obtain ⟨hrefcnt, hdirty⟩ := Bool.and_eq_true_iff.mp hfree
  have hrefcnt : x.refcnt = 0 := of_decide_eq_true hrefcnt
  have hdirty : x.dirty = false := by simpa using hdirty
  have hx : x ∈ l := hl.mem_iff.mpr List.mem_cons_self
  have hlogging : x.logging = false := by
    by_contra hlog
    have hpos := h.logging x hx (Bool.not_eq_false _ ▸ hlog)
    omega
  have hbR : b ∉ R.filterMap Buf.blockno := by
    intro hR
    obtain ⟨z, hz, hzb⟩ := mem_keys.mp hR
    exact hb (mem_keys.mpr ⟨z, hl.mem_iff.mpr (List.mem_cons_of_mem _ hz), hzb⟩)
  have hok : BufsOk d l' := by
    refine h.swap hl hl' ?_ ?_ (fun hlog => by cases hlog) fun _ _ => rfl
    · intro c hc
      cases hc
      exact hbR
    · intro _ c y hc
      cases hc
      rfl
  refine ⟨hok, ?_, fun c => exists_swap hl hl' ?_, fun c => exists_swap hl hl' ?_⟩
  · funext c
    rw [seen_perm hok.distinct hl', seen_perm h.distinct hl, seen_held rfl, seen_cons]
    by_cases hcb : c = b
    · rw [if_pos hcb, if_neg fun hxc => hb (mem_keys.mpr ⟨x, hx, hcb ▸ hxc⟩), hcb, seen_absent hbR]
    · rw [if_neg hcb]
      split_ifs with hxc
      · obtain ⟨y, hy⟩ := held_of_blockno hxc
        rw [seen_absent (h.notMem hl hxc), hy]
        exact (h.clean x hx hdirty c y hy).symm
      · rfl
  · rw [hdirty]
    exact iff_of_false (fun hP => by cases hP.2) fun hP => by cases hP.2
  · rw [hlogging]
    exact iff_of_false (fun hP => by cases hP.2) fun hP => by cases hP.2

theorem pick_buf {A B : List (Buf β)}
    (hpick : pick (fun x : Buf β => decide (x.blockno = some b)) l = some (A, x, B)) :
    l.Perm (x :: (A ++ B)) ∧ x ∈ l ∧ x.blockno = some b := by
  have hl := pick_perm hpick
  exact ⟨hl, hl.mem_iff.mpr List.mem_cons_self, of_decide_eq_true (pick_eq_some hpick).2⟩

theorem absent_of_pick (hnone : pick (fun x : Buf β => decide (x.blockno = some b)) l = none) :
    b ∉ l.filterMap Buf.blockno := by
  rw [mem_keys]
  rintro ⟨z, hz, hzb⟩
  exact of_decide_eq_false (pick_eq_none.mp hnone z hz) hzb

theorem bread_keeps (h : BufsOk d l) (hr : bread d b l = .ok l') : Keeps d l l' := by
  unfold bread at hr
  split at hr
  · rename_i A x B hpick
    cases hr
    exact keeps_refcnt h (pick_perm hpick) List.perm_middle fun _ => Nat.succ_pos _
  · rename_i hnone
    split at hr
    · rename_i B x A hpick
      cases hr
      have hsplit : l.Perm (x :: (A.reverse ++ B.reverse)) := by
        have hl := (pick_eq_some hpick).1
        rw [List.reverse_eq_iff] at hl
        rw [hl, List.reverse_append, List.reverse_cons, List.append_assoc]
        exact List.perm_middle
      exact keeps_recycle h hsplit List.perm_middle (pick_eq_some hpick).2 (absent_of_pick hnone)
    · cases hr

theorem brelse_keeps (h : BufsOk d l) (hidle : ∀ x ∈ l, x.blockno = some b → x.logging = true → 1 < x.refcnt) :
    Keeps d l (brelse b l) := by
  unfold brelse
  split
  · rename_i A x B hpick
    obtain ⟨hl, hx, hxb⟩ := pick_buf hpick
    have hlast := hidle x hx hxb
    split_ifs with hzero
    · refine keeps_refcnt h hl (List.Perm.refl _) fun hlog => ?_
      have := hlast hlog
      omega
    · refine keeps_refcnt h hl List.perm_middle fun hlog => ?_
      have := hlast hlog
      omega
  · exact h.keeps

theorem brelse_unmarked (h : BufsOk d l) (hb : ¬ Marked l b) : Keeps d l (brelse b l) :=
  brelse_keeps h fun x hx hxb hlog => absurd ⟨x, hx, hxb, hlog⟩ hb

theorem visit_keeps {l₁ : List (Buf β)} (h : BufsOk d l) (hno : ∀ b, ¬ Marked l b) (hr : bread d b l = .ok l₁) :
    Keeps d l (brelse b l₁) := by
  have hk := bread_keeps h hr
  exact hk.trans (brelse_unmarked hk.ok fun hb => hno b ((hk.marked b).mp hb))

theorem onBuf_mark (h : BufsOk d l) (hx : x ∈ l) (hxb : x.blockno = some b) (hpos : 0 < x.refcnt) :
    let l' := onBuf b (fun x => { x with logging := true }) l
    BufsOk d l' ∧ seen d l' = seen d l ∧ (∀ c, Pinned l' c ↔ Pinned l c) ∧ ∀ c, Marked l' c ↔ Marked l c ∨ c = b := by
  unfold onBuf
  split
  · rename_i A z B hpick
    obtain ⟨hl, hz, hzb⟩ := pick_buf hpick
    obtain rfl : z = x := h.distinct.eq hz hx hzb hxb
    have hl' : (A ++ { z with logging := true } :: B).Perm ({ z with logging := true } :: (A ++ B)) := List.perm_middle
    have hok : BufsOk d (A ++ { z with logging := true } :: B) :=
      h.swap hl hl' (fun c hc => h.notMem hl hc) (fun hd c y hc => h.clean z hz hd c y hc) (fun _ => hpos) fun _ _ => rfl
    refine ⟨hok, ?_, fun c => exists_swap hl hl' Iff.rfl, fun c => ?_⟩
    · funext c
      rw [seen_perm hok.distinct hl', seen_perm h.distinct hl, seen_cons, seen_cons]
      rfl
    · by_cases hc : c = b
      · exact iff_of_true ⟨_, hl'.mem_iff.mpr List.mem_cons_self, hc ▸ hzb, rfl⟩ (.inr hc)
      · rw [or_iff_left hc]
        exact exists_swap_other hl hl' hzb hzb hc
  · rename_i hnone
    exact absurd (mem_keys.mpr ⟨x, hx, hxb⟩) (absent_of_pick hnone)

theorem onBuf_store (d' : Nat → β) {f : Buf β → Buf β} (h : BufsOk d l) (hheld : ∀ x, (f x).held = some (b, y))
    (hrefcnt : ∀ x, (f x).refcnt = x.refcnt) (hlog : ∀ x, (f x).logging = true → x.logging = true)
    (hdisk : ∀ c, c ≠ b → d' c = d c) (hclean : ∀ x, (f x).dirty = false → d' b = y)
    (habsent : b ∉ l.filterMap Buf.blockno → d' b = y) :
    BufsOk d' (onBuf b f l) ∧ seen d' (onBuf b f l) = Function.update (seen d l) b y ∧
      (∀ c, c ≠ b → (Pinned (onBuf b f l) c ↔ Pinned l c) ∧ (Marked (onBuf b f l) c ↔ Marked l c)) ∧
      (Marked (onBuf b f l) b → Marked l b) := by
  unfold onBuf
  split
  · rename_i A x B hpick
    obtain ⟨hl, hx, hxb⟩ := pick_buf hpick
    have hfb : (f x).blockno = some b := blockno_eq (hheld x)
    have hR : b ∉ (A ++ B).filterMap Buf.blockno := h.notMem hl hxb
    have hl' : (A ++ f x :: B).Perm (f x :: (A ++ B)) := List.perm_middle
    have hok : BufsOk d' (A ++ f x :: B) := by
      refine h.swap hl hl' ?_ ?_ ?_ ?_
      · intro c hc
        rwa [← Option.some.inj (hfb.symm.trans hc)]
      · intro hd c z hc
        cases (hheld x).symm.trans hc
        exact (hclean x hd).symm
      · intro hfx
        rw [hrefcnt]
        exact h.logging x hx (hlog x hfx)
      · exact fun c hc => hdisk c fun hcb => hR (hcb ▸ hc)
    refine ⟨hok, ?_, fun c hc => ⟨exists_swap_other hl hl' hxb hfb hc, exists_swap_other hl hl' hxb hfb hc⟩, ?_⟩
    · funext c
      rw [seen_perm hok.distinct hl', seen_held (hheld x), Function.update_apply]
      split_ifs with hcb
      · rfl
      · rw [seen_perm h.distinct hl, seen_cons, if_neg fun hxc => hcb (Option.some.inj (hxc.symm.trans hxb))]
        unfold seen
        rw [hdisk c hcb]
    · rintro ⟨z, hz, hzb, hzlog⟩
      rcases List.mem_cons.mp (hl'.mem_iff.mp hz) with rfl | hzR
      · exact ⟨x, hx, hxb, hlog x hzlog⟩
      · exact absurd (mem_keys.mpr ⟨z, hzR, hzb⟩) hR
  · rename_i hnone
    have hno := absent_of_pick hnone
    refine ⟨⟨h.length, h.distinct, ?_, h.logging⟩, ?_, fun _ _ => ⟨Iff.rfl, Iff.rfl⟩, id⟩
    · intro z hz hd c w hc
      rw [hdisk c fun hcb => hno (hcb ▸ mem_keys.mpr ⟨z, hz, blockno_eq hc⟩)]
      exact h.clean z hz hd c w hc
    · funext c
      rw [Function.update_apply]
      split_ifs with hcb
      · rw [hcb, seen_absent hno, habsent hno]
      · unfold seen
        rw [hdisk c hcb]

theorem mem_onBuf {f : Buf β → Buf β} (hb : b ∈ l.filterMap Buf.blockno) : ∃ x, f x ∈ onBuf b f l := by
  unfold onBuf
  split
  · rename_i A x B hpick
    exact ⟨x, List.mem_append_right _ List.mem_cons_self⟩
  · rename_i hnone
    exact absurd hb (absent_of_pick hnone)

/-- A block with a buffer is logged: the buffer is dirty, and its lock is no longer needed. -/
theorem onBuf_logged (h : BufsOk d l) (hb : Marked l b) :
    BufsOk d (onBuf b (Buf.logged b y) l) ∧ seen d (onBuf b (Buf.logged b y) l) = Function.update (seen d l) b y ∧
      (∀ c, c ≠ b → (Pinned (onBuf b (Buf.logged b y) l) c ↔ Pinned l c) ∧
        (Marked (onBuf b (Buf.logged b y) l) c ↔ Marked l c)) ∧
      Pinned (onBuf b (Buf.logged b y) l) b ∧ ¬ Marked (onBuf b (Buf.logged b y) l) b := by
  obtain ⟨z, hz, hzb, -⟩ := hb
  have hkey : b ∈ l.filterMap Buf.blockno := mem_keys.mpr ⟨z, hz, hzb⟩
  obtain ⟨hok, hseen, hother, -⟩ := onBuf_store d (f := Buf.logged b y) h (fun _ => rfl) (fun _ => rfl)
    (fun _ hlog => by cases hlog) (fun _ _ => rfl) (fun _ hd => by cases hd) fun hno => absurd hkey hno
  obtain ⟨x, hx⟩ := mem_onBuf (f := Buf.logged b y) hkey
  refine ⟨hok, hseen, hother, ⟨_, hx, rfl, rfl⟩, ?_⟩
  rintro ⟨w, hw, hwb, hlog⟩
  rw [hok.distinct.eq hw hx hwb rfl] at hlog
  cases hlog

/-- **One block is copied to another**: two `bread`, the `bwrite`, and two `brelse`. -/
theorem copy_spec (src dst : Nat) {l₁ l₂ : List (Buf β)} {b₁ b₂ r₁ r₂ : Nat} (h : BufsOk d l) (hno : ∀ b, ¬ Marked l b)
    (h₁ : bread d b₁ l = .ok l₁) (h₂ : bread d b₂ l₁ = .ok l₂) (hy : y = seen d l₂ src) (hd : d' = Function.update d dst y)
    (hl' : l' = brelse r₂ (brelse r₁ (onBuf dst (Buf.written dst y) l₂))) :
    BufsOk d' l' ∧ d' = Function.update d dst (seen d l src) ∧ seen d' l' = Function.update (seen d l) dst (seen d l src) ∧
      (∀ b, b ≠ dst → (Pinned l' b ↔ Pinned l b)) ∧ ∀ b, ¬ Marked l' b := by
  have hk : Keeps d l l₂ := (bread_keeps h h₁).trans (bread_keeps (bread_keeps h h₁).ok h₂)
  rw [congrFun hk.seen src] at hy
  obtain ⟨hok, hseen, hother, hself⟩ := onBuf_store d' (f := Buf.written dst y) hk.ok (fun _ => rfl) (fun _ => rfl)
    (fun _ => id) (fun c hc => hd ▸ Function.update_of_ne hc _ _) (fun _ _ => hd ▸ Function.update_self _ _ _)
    fun _ => hd ▸ Function.update_self _ _ _
  have hfree : ∀ b, ¬ Marked (onBuf dst (Buf.written dst y) l₂) b := by
    intro b hb
    refine hno b ((hk.marked b).mp ?_)
    by_cases hbd : b = dst
    · rw [hbd] at hb ⊢
      exact hself hb
    · exact (hother b hbd).2.mp hb
  have hr₁ := brelse_unmarked hok (hfree r₁)
  have hr := hr₁.trans (brelse_unmarked hr₁.ok fun hb => hfree r₂ ((hr₁.marked r₂).mp hb))
  rw [← hl'] at hr
  refine ⟨hr.ok, hy ▸ hd, ?_, ?_, ?_⟩
  · rw [hr.seen, hseen, hk.seen, hy]
  · exact fun b hb => ((hr.pinned b).trans (hother b hb).1).trans (hk.pinned b)
  · exact fun b hb => hfree b ((hr.marked b).mp hb)

/-- **All buffers are pinned**: no other block can be read. -/
theorem bread_full {lh : List Nat} (h : BufsOk d l) (hlh : lh.Nodup) (hpin : ∀ b ∈ lh, Pinned l b) (hfull : NBUF ≤ lh.length)
    (hb : b ∉ lh) : bread d b l = .error (.panic "bget: no buffers") := by
  have hheld : ∀ c ∈ lh, c ∈ l.filterMap Buf.blockno := by
    intro c hc
    obtain ⟨x, hx, hxc, -⟩ := hpin c hc
    exact mem_keys.mpr ⟨x, hx, hxc⟩
  have hall : ∀ x ∈ l, x.blockno ≠ some b ∧ x.dirty = true := by
    intro x hx
    obtain ⟨c, hc, hxc⟩ := mem_of_full hlh hheld (h.length.trans_le hfull) hx
    obtain ⟨z, hz, hzc, hdirty⟩ := hpin c hc
    rw [h.distinct.eq hx hz hxc hzc]
    exact ⟨fun hzb => hb (Option.some.inj (hzc.symm.trans hzb) ▸ hc), hdirty⟩
  have hmiss : pick (fun x : Buf β => decide (x.blockno = some b)) l = none :=
    pick_eq_none.mpr fun x hx => decide_eq_false (hall x hx).1
  have hnone : pick Buf.free l.reverse = none := by
    refine pick_eq_none.mpr fun x hx => ?_
    unfold Buf.free
    rw [(hall x (List.mem_reverse.mp hx)).2, Bool.not_true, Bool.and_false]
  unfold bread
  rw [hmiss, hnone]

end Xv6Mlfq.Log
