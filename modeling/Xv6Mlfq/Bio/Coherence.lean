import Xv6Mlfq.Bio.Invariant

/-!
# Coherence of the buffer cache

One lemma for each step of the code, then the invariant along every run. A buffer is recycled only without references,
so no other process refers to it, and the queue of the disk holds only buffers whose holders wait, so no data changes
under a request.
-/

namespace Xv6Mlfq.Bio

open Lib

variable {ι : Type} [DecidableEq ι] [Fintype ι]

section steps

variable {st : Nat → Fs.Block} {w w' : World ι} {t : ι} {q : Pc} {b : BRef} {n : Nat}

omit [DecidableEq ι] in
theorem Inv.no_scan (h : Inv st w) (hl : w.bcache = none) (s : ι) : (w.pc s).scans ≠ true := by
  intro hs
  rw [(h.proc s).mutex hs] at hl
  cases hl

omit [DecidableEq ι] in
theorem Inv.scan_unique (h : Inv st w) {s : ι} (ht : (w.pc t).scans = true) (hs : (w.pc s).scans = true) : s = t :=
  Option.some.inj (((h.proc s).mutex hs).symm.trans ((h.proc t).mutex ht))

omit [DecidableEq ι] [Fintype ι] in
theorem ProcOk.trivial (w : World ι) (t : ι) {p : Pc} (hs : p.scans = false) (ht : p.target = none)
    (hu : p.uses = none) : ProcOk w t p := by
  refine ⟨fun h => ?_, fun n c h => ?_, fun n c h => ?_, fun n b h => ?_, fun b h => ?_⟩
  · rw [hs] at h
    cases h
  · rw [h] at hs
    cases hs
  · rw [h] at hs
    cases hs
  · rw [ht] at h
    cases h
  · rw [hu] at h
    cases h

omit [DecidableEq ι] [Fintype ι] in
theorem ProcOk.working {p : Pc} (hs : p.scans = false) (hu : p.uses = some b) (hhold : w.Holding t b)
    (ht : ∀ n c, p.target = some (n, c) → w.Carries c n) : ProcOk w t p := by
  refine ⟨fun h => ?_, fun n c h => ?_, fun n c h => ?_, ht, fun c h => ?_⟩
  · rw [hs] at h
    cases h
  · rw [h] at hs
    cases hs
  · rw [h] at hs
    cases hs
  · obtain rfl : b = c := Option.some.inj (hu.symm.trans h)
    exact hhold

theorem Inv.bread (h : Inv st w) (hp : w.pc t = .out) (n : Nat) : Inv st (w.goto t (.bget n)) := by
  refine h.moveFree t (.bget n) w.bcache (by rw [hp]; rfl) (by rw [hp]; rfl) (by rw [hp]; rfl)
    (fun s _ hs => (h.proc s).mutex hs) (.trivial _ _ rfl rfl rfl)

theorem Inv.bget (h : Inv st w) (hp : w.pc t = .bget n) (hl : w.bcache = none) :
    Inv st ({ w with bcache := some t }.goto t (.find n (w.links.head ()))) := by
  refine h.moveFree t _ (some t) (by rw [hp]; rfl) (by rw [hp]; rfl) (by rw [hp]; rfl)
    (fun s _ hs => absurd hs (h.no_scan hl s)) ⟨fun _ => rfl, fun m c hc l hr => ?_, nofun, nofun, nofun⟩
  · cases hc
    have hr : Represents w.links fun _ => l := hr
    exact ⟨[], l, rfl, hr.head (), by simp⟩

theorem Inv.findNext (h : Inv st w) (hp : w.pc t = .find n (some b)) (hno : ¬ w.Carries b n) :
    Inv st (w.goto t (.find n (w.links.next b))) := by
  have ht : (w.pc t).scans = true := by rw [hp]; rfl
  refine h.moveFree t _ w.bcache (by rw [hp]; rfl) (by rw [hp]; rfl) (by rw [hp]; rfl)
    (fun s _ hs => (h.proc s).mutex hs) ⟨fun _ => (h.proc t).mutex ht, fun m c hc l hr => ?_, nofun, nofun, nofun⟩
  · cases hc
    have hr : Represents w.links fun _ => l := hr
    obtain ⟨A, B, rfl, hb, hA⟩ := (h.proc t).find n (some b) hp l hr
    obtain ⟨B, rfl⟩ := List.head?_eq_some_iff.mp hb.symm
    refine ⟨A ++ [b], B, by simp, hr.next () A b B rfl, fun c hc => ?_⟩
    rcases List.mem_append.mp hc with hc | hc
    · exact hA c hc
    · rw [List.mem_singleton.mp hc]
      exact hno

theorem Inv.findNone (h : Inv st w) (hp : w.pc t = .find n none) :
    Inv st (w.goto t (.recycle n (w.links.tail ()))) := by
  have ht : (w.pc t).scans = true := by rw [hp]; rfl
  refine h.moveFree t _ w.bcache (by rw [hp]; rfl) (by rw [hp]; rfl) (by rw [hp]; rfl)
    (fun s _ hs => (h.proc s).mutex hs) ⟨fun _ => (h.proc t).mutex ht, nofun, fun m c hc b => ?_, nofun, nofun⟩
  · cases hc
    obtain ⟨l, hperm, hr⟩ := h.ring
    obtain ⟨A, B, rfl, hb, hA⟩ := (h.proc t).find n none hp l hr
    obtain rfl : B = [] := List.head?_eq_none_iff.mp hb.symm
    exact hA b (by simpa using hperm.mem_iff.mpr (List.mem_finRange b))

theorem Inv.recycleNext (h : Inv st w) {c : Option BRef} (hp : w.pc t = .recycle n c) (c' : Option BRef) :
    Inv st (w.goto t (.recycle n c')) := by
  have ht : (w.pc t).scans = true := by rw [hp]; rfl
  refine h.moveFree t _ w.bcache (by rw [hp]; rfl) (by rw [hp]; rfl) (by rw [hp]; rfl)
    (fun s _ hs => (h.proc s).mutex hs) ⟨fun _ => (h.proc t).mutex ht, nofun, fun m d hd b => ?_, nofun, nofun⟩
  · cases hd
    exact (h.proc t).recycle n c hp b

omit [DecidableEq ι] [Fintype ι] in
theorem ProcOk.lock (hb : w.Carries b n) (t : ι) : ProcOk w t (.lock n b) := by
  refine ⟨nofun, nofun, nofun, fun m c hc => ?_, nofun⟩
  cases hc
  exact hb

theorem Inv.found (h : Inv st w) (hp : w.pc t = .find n (some b)) (hb : w.Carries b n) :
    Inv st (({ w with bcache := none }.setBuf b fun x => { x with refcnt := x.refcnt + 1 }).goto t (.lock n b)) := by
  have ht : (w.pc t).scans = true := by rw [hp]; rfl
  have howes : (w.pc t).owes = none := by rw [hp]; rfl
  have hfetch : (w.pc t).fetches = none := by rw [hp]; rfl
  have hwait : (w.pc t).waits = none := by rw [hp]; rfl
  have hrefs := (h.buf b).refs
  have hcount := owed_gain (f := w.pc) (q := .lock n b) howes rfl
  refine h.touch (y := { w.buf b with refcnt := (w.buf b).refcnt + 1 }) (x := none) (L := w.links) (P := w.pending)
    (.inl rfl) (fun _ _ => rfl) rfl rfl h.ring (fun s hs hsc => absurd (h.scan_unique ht hsc) hs) (fun s _ hs => hs)
      (fun ha => ha)
    (fun _ => ⟨rfl, rfl⟩) (by rw [howes]; exact nofun) (fun c hc => (Option.some.inj hc).symm)
    (by rw [hfetch]; exact nofun) (by rw [hwait]; exact nofun) ?_ (.lock ?_ t)
  · refine BufOk.frame (fun _ => rfl) (h.buf b) touch_self rfl rfl id ?_ (by rw [hfetch]; exact nofun)
      (by rw [hwait]; exact nofun)
    show _ = _ + owed (Function.update w.pc t (.lock n b)) b
    omega
  · unfold World.Carries
    rw [touch_self]
    exact hb

theorem Inv.acquired (h : Inv st w) (hp : w.pc t = .lock n b) (hl : (w.buf b).lock = none) :
    Inv st ((w.setBuf b fun x => { x with lock := some t }).goto t (.test n b)) := by
  have hb := (h.proc t).target n b (by rw [hp]; rfl)
  have howes : (w.pc t).owes = some b := by rw [hp]; rfl
  have hfetch : (w.pc t).fetches = none := by rw [hp]; rfl
  have hwait : (w.pc t).waits = none := by rw [hp]; rfl
  have hrefs := (h.buf b).refs
  have hcount := owed_lose (f := w.pc) (q := .test n b) howes rfl
  have hquiet := (h.buf b).not_queued_of_unlocked hl
  refine h.touch (y := { w.buf b with lock := some t }) (x := w.bcache) (L := w.links) (P := w.pending)
    (.inl rfl) (fun _ _ => rfl) rfl rfl h.ring (fun s _ hsc => ⟨(h.proc s).mutex hsc, rfl⟩)
      (fun s _ hs => by rw [hl] at hs; cases hs)
    (fun ha => ha) (fun _ => ⟨rfl, rfl⟩) (fun c hc => by rw [howes] at hc; exact (Option.some.inj hc).symm) nofun
    (by rw [hfetch]; exact nofun) (by rw [hwait]; exact nofun) ?_ ?_
  · refine ⟨?_, fun s hs => ?_, ?_, fun hpd => ?_, ?_, fun hq => absurd hq hquiet⟩
    · rw [touch_self, if_neg nofun]
      show _ = 1 + owed (Function.update w.pc t (.test n b)) b
      rw [hrefs, if_pos hl]
      omega
    · unfold World.Holding at hs
      rw [touch_self] at hs ⊢
      obtain rfl : t = s := Option.some.inj hs
      refine ⟨hb.1, .inr ?_⟩
      rw [show (w.touch t _ b _ _ _ _).pc t = .test n b from Function.update_self ..]
      rfl
    · rw [touch_self]
      exact (h.buf b).dirty
    · rw [touch_self]
      exact absurd hl ((h.buf b).pending hpd).2
    · rw [touch_self]
      exact (h.buf b).data
  · refine .working rfl rfl ?_ fun m c hc => ?_
    · unfold World.Holding
      rw [touch_self]
    · cases hc
      unfold World.Carries
      rw [touch_self]
      exact hb

theorem Inv.work (h : Inv st w) (q : Pc) (hu : (w.pc t).uses = some b) (hu' : q.uses = some b)
    (ho : (w.pc t).owes = none) (ho' : q.owes = none) (hs : q.scans = false)
    (ht : ∀ n c, q.target = some (n, c) → (w.pc t).target = some (n, c))
    (hfetch : ∀ c, (w.pc t).fetches = some c → q.fetches = some c ∨ (w.buf c).valid = true)
    (hwait : ∀ c, (w.pc t).waits = some c → c ∉ w.idequeue) : Inv st (w.goto t q) :=
  h.move t q w.bcache (ho'.trans ho.symm) hfetch (fun c hc => .inr (hwait c hc)) (fun s _ hsc => (h.proc s).mutex hsc)
    (.working hs hu' ((h.proc t).uses b hu) fun n c hc => (h.proc t).target n c (ht n c hc))

theorem Inv.test (h : Inv st w) (hp : w.pc t = .test n b) :
    Inv st (w.goto t (if (w.buf b).valid then .ret n b else .iderw (.bread n) b)) := by
  split_ifs with hv
  · refine h.work _ (by rw [hp]; rfl) rfl (by rw [hp]; rfl) rfl rfl (by rw [hp]; exact fun _ _ hc => hc) (fun c hc => ?_) ?_
    · rw [hp] at hc
      cases hc
      exact .inr hv
    · rw [hp]
      exact nofun
  · refine h.work _ (by rw [hp]; rfl) rfl (by rw [hp]; rfl) rfl rfl (by rw [hp]; exact fun _ _ hc => hc) (fun c hc => ?_) ?_
    · rw [hp] at hc
      exact .inl hc
    · rw [hp]
      exact nofun

theorem Inv.returned (h : Inv st w) (hp : w.pc t = .ret n b) : Inv st (w.goto t .out) :=
  h.moveFree t .out w.bcache (by rw [hp]; rfl) (by rw [hp]; rfl) (by rw [hp]; rfl) (fun s _ hs => (h.proc s).mutex hs)
    (.trivial _ _ rfl rfl rfl)

theorem Inv.waited (h : Inv st w) {k : Caller} (hp : w.pc t = .wait k b) (hv : (w.buf b).valid = true)
    (hd : (w.buf b).dirty = false) : Inv st (w.goto t (k.next b)) := by
  -- the request is done
  have hq : b ∉ w.idequeue := fun hq => by
    rcases ((h.buf b).queued hq).1 with hc | hc
    · rw [hd] at hc
      cases hc
    · rw [hv] at hc
      cases hc
  cases k with
  | bread n =>
    refine h.work (.ret n b) (by rw [hp]; rfl) rfl (by rw [hp]; rfl) rfl rfl (by rw [hp]; exact fun _ _ hc => hc)
      (fun c hc => ?_) fun c hc => ?_
    · rw [hp] at hc
      cases hc
      exact .inr hv
    · rw [hp] at hc
      cases hc
      exact hq
  | bwrite =>
    refine h.move t .out w.bcache (by rw [hp]; rfl) (fun c hc => ?_) (fun c hc => ?_) (fun s _ hs => (h.proc s).mutex hs)
      (.trivial _ _ rfl rfl rfl)
    · rw [hp] at hc
      cases hc
    · rw [hp] at hc
      cases hc
      exact .inr hq

theorem Inv.released (h : Inv st w) (hp : w.pc t = .relse b) (hl : w.bcache = none) :
    Inv st ({ w.setBuf b fun x => { x with refcnt := x.refcnt - 1 } with
      links := if (w.buf b).refcnt - 1 = 0 then linkFront b (takeOut b w.links) else w.links }.goto t .out) := by
  have howes : (w.pc t).owes = some b := by rw [hp]; rfl
  have hfetch : (w.pc t).fetches = none := by rw [hp]; rfl
  have hwait : (w.pc t).waits = none := by rw [hp]; rfl
  have hrefs := (h.buf b).refs
  have hcount := owed_lose (f := w.pc) (q := .out) howes rfl
  refine h.touch (y := { w.buf b with refcnt := (w.buf b).refcnt - 1 }) (x := w.bcache) (P := w.pending)
    (.inl rfl) (fun _ _ => rfl) rfl rfl ?_ (fun s _ hsc => absurd hsc (h.no_scan hl s)) (fun s _ hs => hs)
    (fun ha => ha) (fun _ => ⟨rfl, rfl⟩) (fun c hc => by rw [howes] at hc; exact (Option.some.inj hc).symm) nofun
    (by rw [hfetch]; exact nofun) (by rw [hwait]; exact nofun) ?_ (.trivial _ _ rfl rfl rfl)
  · obtain ⟨l, hperm, hr⟩ := h.ring
    split_ifs with hzero
    · obtain ⟨A, B, rfl⟩ := List.append_of_mem (hperm.mem_iff.mpr (List.mem_finRange b))
      exact ⟨b :: (A ++ B), List.perm_middle.symm.trans hperm, represents_front hr⟩
    · exact ⟨l, hperm, hr⟩
  · refine BufOk.frame (fun _ => rfl) (h.buf b) touch_self rfl rfl id ?_ (by rw [hfetch]; exact nofun)
      (by rw [hwait]; exact nofun)
    show _ = _ + owed (Function.update w.pc t .out) b
    omega

omit [DecidableEq ι] in
theorem Inv.out_quiet (h : Inv st w) (hp : w.pc t = .out) (hh : w.Holding t b) :
    b ∉ w.idequeue ∧ (w.buf b).dev = ROOTDEV ∧ (w.buf b).valid = true := by
  refine ⟨(h.buf b).not_queued hh (by rw [hp]; exact nofun), ?_⟩
  obtain ⟨hdev, hv⟩ := (h.buf b).held t hh
  refine ⟨hdev, hv.resolve_right ?_⟩
  rw [hp]
  exact nofun

theorem Inv.mark (h : Inv st w) (hp : w.pc t = .out) (hh : w.Holding t b) (q : Pc) (ho : q.owes = none)
    (hproc : ∀ w' : World ι, w'.Holding t b → ProcOk w' t q) :
    Inv st ({ w.setBuf b fun x => { x with dirty := true } with
      pending := Function.update w.pending b false }.goto t q) := by
  obtain ⟨hq, hdev, hv⟩ := h.out_quiet hp hh
  have howes : (w.pc t).owes = none := by rw [hp]; rfl
  have hrefs := (h.buf b).refs
  have hcount := owed_update w.pc t q b
  rw [howes, ho] at hcount
  have hself : (w.touch t q b { w.buf b with dirty := true } w.bcache w.links
      (Function.update w.pending b false)).Holding t b := by
    unfold World.Holding
    rw [touch_self]
    exact hh
  refine h.touch (y := { w.buf b with dirty := true }) (x := w.bcache) (L := w.links)
    (P := Function.update w.pending b false) (.inl rfl) (fun c hc => Function.update_of_ne hc _ _) rfl rfl h.ring
    (fun s _ hsc => ⟨(h.proc s).mutex hsc, rfl⟩) (fun s _ hs => hs) (fun _ => .inl rfl) (fun hb => absurd hb hq)
    (by rw [howes]; exact nofun) (by rw [ho]; exact nofun) (by rw [hp]; exact nofun) (by rw [hp]; exact nofun) ?_
    (hproc _ hself)
  refine ⟨?_, fun s hs => ?_, fun _ => ?_, fun hpd => ?_, ?_, fun hb => absurd hb hq⟩
  · rw [touch_self]
    show (w.buf b).refcnt = (if (w.buf b).lock = none then 0 else 1) + owed (Function.update w.pc t q) b
    omega
  · rw [touch_self]
    exact ⟨hdev, .inl hv⟩
  · rw [touch_self]
    exact ⟨hdev, hv⟩
  · rw [show (w.touch t q b _ _ _ (Function.update w.pending b false)).pending b = false from
      Function.update_self ..] at hpd
    cases hpd
  · rw [touch_self]
    exact (h.buf b).data

theorem Inv.brelse (h : Inv st w) (hp : w.pc t = .out) (hh : w.Holding t b) (hpd : w.pending b = false) :
    Inv st ((w.setBuf b fun x => { x with lock := none }).goto t (.relse b)) := by
  obtain ⟨hq, hdev, hv⟩ := h.out_quiet hp hh
  have howes : (w.pc t).owes = none := by rw [hp]; rfl
  have hrefs := (h.buf b).refs
  have hcount := owed_gain (f := w.pc) (q := .relse b) howes rfl
  refine h.touch (y := { w.buf b with lock := none }) (x := w.bcache) (L := w.links) (P := w.pending)
    (.inl rfl) (fun _ _ => rfl) rfl rfl h.ring (fun s _ hsc => ⟨(h.proc s).mutex hsc, rfl⟩) (fun s hs hl => ?_)
      (fun ha => ha)
    (fun _ => ⟨rfl, rfl⟩) (by rw [howes]; exact nofun) (fun c hc => (Option.some.inj hc).symm)
    (by rw [hp]; exact nofun) (by rw [hp]; exact nofun) ?_ (.trivial _ _ rfl rfl rfl)
  · exact absurd (Option.some.inj (hl.symm.trans hh)) hs
  · refine ⟨?_, fun s hs => ?_, ?_, fun hpd' => ?_, ?_, fun hb => absurd hb hq⟩
    · rw [touch_self, if_pos rfl]
      show _ = 0 + owed (Function.update w.pc t (.relse b)) b
      rw [hrefs, if_neg (by rw [show (w.buf b).lock = some t from hh]; exact nofun)]
      omega
    · unfold World.Holding at hs
      rw [touch_self] at hs
      cases hs
    · rw [touch_self]
      exact (h.buf b).dirty
    · rw [show (w.touch t _ b _ _ _ w.pending).pending b = false from hpd] at hpd'
      cases hpd'
    · rw [touch_self]
      exact (h.buf b).data

theorem Inv.store (h : Inv st w) (hp : w.pc t = .out) (hh : w.Holding t b) (d : Fs.Block) :
    Inv (Function.update st (w.buf b).blockno d)
      { w.setBuf b fun x => { x with data := d } with pending := Function.update w.pending b true } := by
  obtain ⟨hq, hdev, hv⟩ := h.out_quiet hp hh
  have hpc : Function.update w.pc t .out = w.pc := by rw [← hp, Function.update_eq_self]
  have hworld : ({ w.setBuf b fun x => { x with data := d } with
      pending := Function.update w.pending b true } : World ι) =
      w.touch t .out b { w.buf b with data := d } w.bcache w.links (Function.update w.pending b true) := by
    unfold World.touch
    rw [hpc]
    rfl
  rw [hworld]
  refine h.touch (.inr ⟨hdev, .inr (Function.update_self ..), fun m hm => Function.update_of_ne hm _ _⟩)
    (fun c hc => Function.update_of_ne hc _ _) rfl rfl h.ring (fun s _ hsc => ⟨(h.proc s).mutex hsc, rfl⟩)
    (fun s _ hs => hs) (fun _ => .inr (Function.update_self ..)) (fun hb => absurd hb hq) (by rw [hp]; exact nofun) nofun
    (by rw [hp]; exact nofun) (by rw [hp]; exact nofun) ?_ (.trivial _ _ rfl rfl rfl)
  refine ⟨?_, fun s hs => ?_, ?_, fun _ => ?_, fun _ _ => ?_, fun hb => absurd hb hq⟩
  · rw [touch_self]
    show _ = _ + owed (Function.update w.pc t .out) b
    rw [hpc]
    exact (h.buf b).refs
  · rw [touch_self]
    exact ⟨hdev, .inl hv⟩
  · rw [touch_self]
    exact (h.buf b).dirty
  · rw [touch_self]
    exact ⟨hv, by rw [show (w.buf b).lock = some t from hh]; exact nofun⟩
  · rw [touch_self]
    show d = Function.update st (w.buf b).blockno d (w.buf b).blockno
    rw [Function.update_self]

theorem Inv.recycled (h : Inv st w) (hp : w.pc t = .recycle n (some b)) (hr : (w.buf b).refcnt = 0)
    (hd : (w.buf b).dirty = false) :
    Inv st (({ w with bcache := none }.setBuf b fun x =>
      { x with dev := ROOTDEV, blockno := n, valid := false, dirty := false, refcnt := 1 }).goto t (.lock n b)) := by
  have ht : (w.pc t).scans = true := by rw [hp]; rfl
  have hnone := (h.proc t).recycle n (some b) hp
  obtain ⟨hl, hno⟩ := (h.buf b).unused hr
  have hq := (h.buf b).not_queued_of_unlocked hl
  have hpd : w.pending b = false := by
    by_contra hpd
    exact ((h.buf b).pending (by simpa using hpd)).2 hl
  have howes : (w.pc t).owes = none := by rw [hp]; rfl
  have hrefs := (h.buf b).refs
  have hcount := owed_gain (f := w.pc) (q := .lock n b) howes rfl
  show Inv st (w.touch t (.lock n b) b
    { w.buf b with dev := ROOTDEV, blockno := n, valid := false, dirty := false, refcnt := 1 } none w.links w.pending)
  generalize hy : ({ w.buf b with
    dev := ROOTDEV, blockno := n, valid := false, dirty := false, refcnt := 1 } : Buf ι) = y
  generalize hw' : w.touch t (.lock n b) b y none w.links w.pending = w'
  have hb : w'.buf b = y := by
    rw [← hw']
    exact touch_self
  have hc : ∀ c, c ≠ b → w'.buf c = w.buf c := fun c hne => by
    rw [← hw']
    exact touch_ne hne
  have hcarry : ∀ c m, w'.Carries c m ↔ (c = b ∧ m = n) ∨ (c ≠ b ∧ w.Carries c m) := by
    intro c m
    unfold World.Carries
    by_cases hcb : c = b
    · rw [hcb, hb, ← hy]
      simp [eq_comm]
    · rw [hc c hcb]
      simp [hcb]
  have hpc : w'.pc = Function.update w.pc t (.lock n b) := by rw [← hw']; rfl
  have hqueue : w'.idequeue = w.idequeue := by rw [← hw']; rfl
  have hdisk : w'.disk = w.disk := by rw [← hw']; rfl
  have hpending : w'.pending = w.pending := by rw [← hw']; rfl
  refine ⟨⟨by rw [← hw']; exact h.ring, fun s => ?_, fun c => ?_, fun c d m hcm hdm => ?_, fun m hm => ?_,
    hqueue ▸ h.queue⟩, fun c hcq hcd => ?_⟩
  · by_cases hs : s = t
    · rw [hpc, hs, Function.update_self]
      exact .lock ((hcarry b n).mpr (.inl ⟨rfl, rfl⟩)) t
    · rw [hpc, Function.update_of_ne hs]
      have hns : ¬ (w.pc s).scans = true := fun hsc => hs (h.scan_unique ht hsc)
      have hother : ∀ c, (w.pc s).uses = some c → c ≠ b := by
        rintro c hu rfl
        exact absurd (hl.symm.trans ((h.proc s).uses c hu)) nofun
      refine ⟨fun hsc => absurd hsc hns, fun m c hm => absurd (by rw [hm]; rfl) hns,
        fun m c hm => absurd (by rw [hm]; rfl) hns, fun m c hm => (hcarry c m).mpr (.inr ⟨?_, (h.proc s).target m c hm⟩),
        fun c hu => ?_⟩
      · -- no other process refers to the buffer
        rintro rfl
        rcases target_cases hm with ho | hu
        · exact hno s ho
        · exact hother c hu rfl
      · unfold World.Holding
        rw [hc c (hother c hu)]
        exact (h.proc s).uses c hu
  · by_cases hcb : c = b
    · rw [hcb]
      have hlock : y.lock = none := by rw [← hy]; exact hl
      refine ⟨?_, fun s hs => ?_, fun hyd => ?_, fun hyp => ?_, fun _ hyv => ?_, fun hbq => absurd (hqueue ▸ hbq) hq⟩
      · rw [hb, hlock, if_pos rfl, hpc, ← hy]
        show 1 = 0 + _
        rw [hr, if_pos hl] at hrefs
        omega
      · unfold World.Holding at hs
        rw [hb, hlock] at hs
        cases hs
      · rw [hb, ← hy] at hyd
        cases hyd
      · rw [hpending, hpd] at hyp
        cases hyp
      · rw [hb, ← hy] at hyv
        cases hyv
    · have hrefs := (h.buf c).refs
      have hcount := owed_other (f := w.pc) (t := t) (c := c) (q := .lock n b) (by rw [howes]; exact nofun)
        fun heq => hcb (Option.some.inj heq).symm
      refine BufOk.frame (t := t) (q := .lock n b) (r := (w.buf c).refcnt) (fun _ => rfl) (h.buf c) (hc c hcb) hpc
        (by rw [hpending]) (by rw [hqueue]; exact id) ?_ (by rw [hp]; exact nofun) (by rw [hp]; exact nofun)
      rw [hpc]
      omega
  · rcases (hcarry c m).mp hcm with ⟨rfl, rfl⟩ | ⟨hcb, hcm⟩
    · rcases (hcarry d m).mp hdm with ⟨rfl, -⟩ | ⟨-, hdm⟩
      · rfl
      · exact absurd hdm (hnone d)
    · rcases (hcarry d m).mp hdm with ⟨rfl, rfl⟩ | ⟨-, hdm⟩
      · exact absurd hcm (hnone c)
      · exact h.unique c d m hcm hdm
  · rw [hdisk]
    refine h.disk m fun c hcm ha => ?_
    by_cases hcb : c = b
    · -- the recycled buffer is not ahead of the disk
      rw [hcb] at ha
      rcases ha with ha | ha
      · rw [hd] at ha
        cases ha
      · rw [hpd] at ha
        cases ha
    · refine hm c ((hcarry c m).mpr (.inr ⟨hcb, hcm⟩)) ?_
      unfold World.Ahead at ha ⊢
      rwa [hc c hcb, hpending]
  · rw [hqueue] at hcq
    have hcb : c ≠ b := fun heq => hq (heq ▸ List.mem_of_head? hcq)
    rw [hc c hcb] at hcd ⊢
    rw [hdisk]
    exact h.head c hcq hcd

def Keeps (w w' : World ι) : Prop :=
  ∀ b, 0 < (w.buf b).refcnt ∨ (w.buf b).dirty = true →
    (w'.buf b).dev = (w.buf b).dev ∧ (w'.buf b).blockno = (w.buf b).blockno

omit [DecidableEq ι] [Fintype ι] in
theorem Keeps.of_eq (h : w'.buf = w.buf) : Keeps w w' := fun b _ => by rw [h]; exact ⟨rfl, rfl⟩

omit [DecidableEq ι] [Fintype ι] in
theorem Keeps.write {y : Buf ι} (h : w'.buf = Function.update w.buf b y)
    (hy : 0 < (w.buf b).refcnt ∨ (w.buf b).dirty = true → y.dev = (w.buf b).dev ∧ y.blockno = (w.buf b).blockno) :
    Keeps w w' := by
  intro c hc
  rw [h, Function.update_apply]
  split_ifs with hcb
  · rw [hcb] at hc ⊢
    exact hy hc
  · exact ⟨rfl, rfl⟩

omit [DecidableEq ι] [Fintype ι] in
theorem idestart_buf (hrun : w.idestart b = .ok w') : w'.buf = w.buf := by
  unfold World.idestart at hrun
  split_ifs at hrun
  · cases hrun
    rfl
  · cases hrun
    rfl

omit [DecidableEq ι] in
theorem Core.idestart (h : Core st w) (hq : w.idequeue.head? = some b) (hrun : w.idestart b = .ok w') : Inv st w' := by
  unfold World.idestart at hrun
  split_ifs at hrun with hbig hd
  · cases hrun
    obtain ⟨hdev, hv⟩ := (h.buf b).dirty hd
    have hdata := (h.buf b).data hdev hv
    refine ⟨⟨h.ring, fun s => (h.proc s).frame (fun _ _ => Iff.rfl) (fun hs => ⟨(h.proc s).mutex hs, rfl⟩) fun _ hs _ => hs,
      fun c => ⟨(h.buf c).refs, (h.buf c).held, (h.buf c).dirty, (h.buf c).pending, (h.buf c).data, (h.buf c).queued⟩,
      h.unique, fun n hn => ?_, h.queue⟩, fun c hc _ => ?_⟩
    · show Function.update w.disk _ _ n = st n
      rw [Function.update_apply]
      split_ifs with hnb
      · rw [hdata, hnb]
      · exact h.disk n hn
    · obtain rfl : b = c := Option.some.inj (hq.symm.trans hc)
      exact Function.update_self ..
  · cases hrun
    refine ⟨h, fun c hc hcd => ?_⟩
    obtain rfl : b = c := Option.some.inj (hq.symm.trans hc)
    exact absurd hcd hd

theorem Inv.enqueue (h : Inv st w) {k : Caller} (hp : w.pc t = .iderw k b) (hh : w.Holding t b)
    (hwork : (w.buf b).dirty = true ∨ (w.buf b).valid = false) :
    Core st ({ w with idequeue := w.idequeue ++ [b] }.goto t (.wait k b)) := by
  have hq := (h.buf b).not_queued hh (by rw [hp]; exact nofun)
  have howes : (w.pc t).owes = none := by rw [hp]; rfl
  have hcount : ∀ c, owed (Function.update w.pc t (.wait k b)) c = owed w.pc c := fun c =>
    owed_other (by rw [howes]; exact nofun) nofun
  have hfetch : (w.pc t).fetches = (Pc.wait k b).fetches := by
    rw [hp]
    cases k <;> rfl
  have htarget : (w.pc t).target = (Pc.wait k b).target := by
    rw [hp]
    cases k <;> rfl
  refine ⟨h.ring, fun s => ?_, fun c => ?_, h.unique, h.disk, ?_⟩
  · by_cases hs : s = t
    · subst hs
      rw [goto_pc_self]
      exact .working rfl rfl hh fun n c hc => (h.proc s).target n c (htarget.trans hc)
    · rw [goto_pc_ne _ hs]
      exact (h.proc s).frame (fun _ _ => Iff.rfl) (fun hsc => ⟨(h.proc s).mutex hsc, rfl⟩) fun _ hb _ => hb
  · by_cases hcb : c = b
    · rw [hcb]
      refine ⟨?_, fun s hs => ?_, (h.buf b).dirty, (h.buf b).pending, (h.buf b).data, fun _ => ⟨hwork, t, hh, ?_⟩⟩
      · show _ = _ + owed (Function.update w.pc t (.wait k b)) b
        rw [hcount]
        exact (h.buf b).refs
      · obtain rfl : t = s := Option.some.inj (hh.symm.trans hs)
        rw [goto_pc_self, ← hfetch]
        exact (h.buf b).held t hs
      · rw [goto_pc_self]
        rfl
    · refine BufOk.frame (t := t) (q := .wait k b) (r := (w.buf c).refcnt) (fun _ => rfl) (h.buf c) rfl rfl rfl
        (fun hc => ?_) ?_ (fun hf => .inl (hfetch ▸ hf)) (by rw [hp]; exact nofun)
      · rcases List.mem_append.mp hc with hc | hc
        · exact hc
        · exact absurd (List.mem_singleton.mp hc) hcb
      · show _ = _ + owed (Function.update w.pc t (.wait k b)) c
        rw [hcount]
        exact (h.buf c).refs
  · show (w.idequeue ++ [b]).Nodup
    refine h.queue.append (List.nodup_singleton b) ?_
    rw [List.disjoint_singleton]
    exact hq

theorem Inv.iderw (h : Inv st w) {k : Caller} (hp : w.pc t = .iderw k b) (hrun : w.iderw t k b = .ok w') :
    Inv st w' ∧ Keeps w w' := by
  unfold World.iderw at hrun
  split_ifs at hrun with hh hdone hempty
  all_goals
    have hwork : (w.buf b).dirty = true ∨ (w.buf b).valid = false := by
      by_contra hno
      rw [not_or, Bool.not_eq_true, Bool.not_eq_false] at hno
      exact hdone ⟨hno.2, hno.1⟩
    have hcore := h.enqueue hp hh hwork
  · have hbuf := idestart_buf hrun
    refine ⟨hcore.idestart ?_ hrun, .of_eq hbuf⟩
    show (w.idequeue ++ [b]).head? = some b
    rw [hempty]
    rfl
  · cases hrun
    refine ⟨⟨hcore, fun c hc hcd => h.head c ?_ hcd⟩, .of_eq rfl⟩
    rw [← hc]
    exact (List.head?_append_of_ne_nil w.idequeue hempty).symm

omit [DecidableEq ι] in
theorem Inv.dequeue (h : Inv st w) {q : List BRef} (hq : w.idequeue = b :: q) :
    Core st ({ w with idequeue := q }.setBuf b fun x =>
      { x with data := if x.dirty then x.data else w.disk x.blockno, valid := true, dirty := false }) := by
  have hmem : b ∈ w.idequeue := by rw [hq]; exact List.mem_cons_self
  obtain ⟨hbq, hnodup⟩ := List.nodup_cons.mp (hq ▸ h.queue)
  obtain ⟨hwork, t, hh, hw⟩ := (h.buf b).queued hmem
  have hdev := ((h.buf b).held t hh).1
  -- afterwards the disk has what was last stored to the block
  have hdisk : w.disk (w.buf b).blockno = st (w.buf b).blockno := by
    cases hd : (w.buf b).dirty with
    | true =>
      rw [h.head b (by rw [hq]; rfl) hd]
      exact (h.buf b).data hdev ((h.buf b).dirty hd).2
    | false =>
      refine h.disk _ fun c hc ha => ?_
      obtain rfl := h.unique c b _ hc ⟨hdev, rfl⟩
      rcases ha with ha | ha
      · rw [hd] at ha
        cases ha
      · rw [hd] at hwork
        rw [((h.buf c).pending ha).1] at hwork
        simp at hwork
  have hdata : (if (w.buf b).dirty then (w.buf b).data else w.disk (w.buf b).blockno) = st (w.buf b).blockno := by
    split_ifs with hd
    · exact (h.buf b).data hdev ((h.buf b).dirty hd).2
    · exact hdisk
  generalize hw' : ({ w with idequeue := q }.setBuf b fun x =>
    { x with data := if x.dirty then x.data else w.disk x.blockno, valid := true, dirty := false }) = w'
  have hb : w'.buf b = { w.buf b with
      data := if (w.buf b).dirty then (w.buf b).data else w.disk (w.buf b).blockno, valid := true, dirty := false } := by
    rw [← hw']
    exact Function.update_self ..
  have hc : ∀ c, c ≠ b → w'.buf c = w.buf c := fun c hne => by
    rw [← hw']
    exact Function.update_of_ne hne _ _
  have hname : ∀ c, (w'.buf c).dev = (w.buf c).dev ∧ (w'.buf c).blockno = (w.buf c).blockno ∧
      (w'.buf c).lock = (w.buf c).lock ∧ (w'.buf c).refcnt = (w.buf c).refcnt := by
    intro c
    by_cases hcb : c = b
    · rw [hcb, hb]
      exact ⟨rfl, rfl, rfl, rfl⟩
    · rw [hc c hcb]
      exact ⟨rfl, rfl, rfl, rfl⟩
  have hcarry : ∀ c n, w'.Carries c n ↔ w.Carries c n := fun c n => by
    unfold World.Carries
    rw [(hname c).1, (hname c).2.1]
  have hhold : ∀ s c, w'.Holding s c ↔ w.Holding s c := fun s c => by
    unfold World.Holding
    rw [(hname c).2.2.1]
  have hpc : w'.pc = w.pc := by rw [← hw']; rfl
  have hpending : w'.pending = w.pending := by rw [← hw']; rfl
  have hqueue : w'.idequeue = q := by rw [← hw']; rfl
  have hlinks : w'.links = w.links := by rw [← hw']; rfl
  have hbcache : w'.bcache = w.bcache := by rw [← hw']; rfl
  have hdisk' : w'.disk = w.disk := by rw [← hw']; rfl
  refine ⟨hlinks ▸ h.ring, fun s => ?_, fun c => ?_, fun c d n hcn hdn => ?_, fun n hn => ?_, hqueue ▸ hnodup⟩
  · rw [hpc]
    exact (h.proc s).frame hcarry (fun hsc => ⟨hbcache ▸ (h.proc s).mutex hsc, hlinks⟩) fun c hcs _ => (hhold s c).mpr hcs
  · have hrefs : (w'.buf c).refcnt = (if (w'.buf c).lock = none then 0 else 1) + owed w'.pc c := by
      rw [(hname c).2.2.1, (hname c).2.2.2, hpc]
      exact (h.buf c).refs
    by_cases hcb : c = b
    · rw [hcb] at hrefs ⊢
      refine ⟨hrefs, fun s hs => ?_, fun hd => ?_, fun hpd => ?_, fun _ _ => ?_, fun hbq' => absurd (hqueue ▸ hbq') hbq⟩
      · rw [hb]
        exact ⟨hdev, .inl rfl⟩
      · rw [hb] at hd
        cases hd
      · rw [hb]
        exact ⟨rfl, ((h.buf b).pending (hpending ▸ hpd)).2⟩
      · rw [hb]
        exact hdata
    · refine ⟨hrefs, fun s hs => ?_, ?_, ?_, ?_, fun hcq => ?_⟩
      · rw [hc c hcb, hpc]
        exact (h.buf c).held s ((hhold s c).mp hs)
      · rw [hc c hcb]
        exact (h.buf c).dirty
      · rw [hc c hcb, hpending]
        exact (h.buf c).pending
      · rw [hc c hcb]
        exact (h.buf c).data
      · rw [hqueue] at hcq
        obtain ⟨hf, s, hs, hsw⟩ := (h.buf c).queued (by rw [hq]; exact List.mem_cons_of_mem _ hcq)
        rw [hc c hcb, hpc]
        exact ⟨hf, s, (hhold s c).mpr hs, hsw⟩
  · exact h.unique c d n ((hcarry c n).mp hcn) ((hcarry d n).mp hdn)
  · rw [hdisk']
    by_cases hnb : n = (w.buf b).blockno
    · rw [hnb]
      exact hdisk
    · refine h.disk n fun c hcn ha => hn c ((hcarry c n).mpr hcn) ?_
      have hcb : c ≠ b := fun heq => hnb (heq ▸ hcn.2.symm)
      unfold World.Ahead at ha ⊢
      rwa [hc c hcb, hpending]

omit [DecidableEq ι] in
theorem Inv.ideintr (h : Inv st w) (hrun : w.ideintr = .ok w') : Inv st w' ∧ Keeps w w' := by
  unfold World.ideintr at hrun
  cases hq : w.idequeue with
  | nil =>
    rw [hq] at hrun
    cases hrun
    exact ⟨h, .of_eq rfl⟩
  | cons b q =>
    rw [hq] at hrun
    have hcore := h.dequeue hq
    cases q with
    | nil =>
      cases hrun
      exact ⟨⟨hcore, nofun⟩, .write rfl fun _ => ⟨rfl, rfl⟩⟩
    | cons b' q => exact ⟨hcore.idestart rfl hrun, .write (idestart_buf hrun) fun _ => ⟨rfl, rfl⟩⟩

theorem Inv.next (h : Inv st w) (hrun : w.next t = .ok w') : Inv st w' ∧ Keeps w w' := by
  unfold World.next at hrun
  cases hp : w.pc t with
  | out =>
    rw [hp] at hrun
    cases hrun
  | bget n =>
    simp only [hp] at hrun
    split_ifs at hrun with hl
    cases hrun
    exact ⟨h.bget hp hl, .of_eq rfl⟩
  | find n c =>
    simp only [hp] at hrun
    cases c with
    | none =>
      cases hrun
      exact ⟨h.findNone hp, .of_eq rfl⟩
    | some b =>
      simp only at hrun
      split_ifs at hrun with hb
      · cases hrun
        exact ⟨h.found hp hb, .write rfl fun _ => ⟨rfl, rfl⟩⟩
      · cases hrun
        exact ⟨h.findNext hp hb, .of_eq rfl⟩
  | recycle n c =>
    simp only [hp] at hrun
    cases c with
    | none => cases hrun
    | some b =>
      simp only at hrun
      split_ifs at hrun with hb
      · cases hrun
        refine ⟨h.recycled hp hb.1 hb.2, .write rfl fun huse => ?_⟩
        rw [hb.1, hb.2] at huse
        simp at huse
      · cases hrun
        exact ⟨h.recycleNext hp _, .of_eq rfl⟩
  | lock n b =>
    simp only [hp] at hrun
    split_ifs at hrun with hl
    cases hrun
    exact ⟨h.acquired hp hl, .write rfl fun _ => ⟨rfl, rfl⟩⟩
  | test n b =>
    simp only [hp] at hrun
    cases hrun
    exact ⟨h.test hp, .of_eq rfl⟩
  | iderw k b =>
    simp only [hp] at hrun
    exact h.iderw hp hrun
  | wait k b =>
    simp only [hp] at hrun
    split_ifs at hrun with hb
    cases hrun
    exact ⟨h.waited hp hb.1 hb.2, .of_eq rfl⟩
  | ret n b =>
    simp only [hp] at hrun
    cases hrun
    exact ⟨h.returned hp, .of_eq rfl⟩
  | relse b =>
    simp only [hp] at hrun
    by_cases hl : w.bcache = none
    · rw [if_pos hl] at hrun
      cases hrun
      exact ⟨h.released hp hl, .write rfl fun _ => ⟨rfl, rfl⟩⟩
    · rw [if_neg hl] at hrun
      cases hrun

omit [Fintype ι] in
theorem goto_self {p : Pc} (hp : w.pc t = p) : w.goto t p = w := by
  unfold World.goto
  rw [← hp, Function.update_eq_self]

/-- What was last stored, after one more step. -/
def storedBy (st : Nat → Fs.Block) (w : World ι) : BAct ι → Nat → Fs.Block
  | .store _ b d => Function.update st (w.buf b).blockno d
  | _ => st

theorem Inv.step {a : BAct ι} (h : Inv st w) (hrun : bstep w a = .ok w') : Inv (storedBy st w a) w' ∧ Keeps w w' := by
  cases a with
  | bread t n =>
    simp only [bstep] at hrun
    split_ifs at hrun with hp
    cases hrun
    exact ⟨h.bread hp n, .of_eq rfl⟩
  | store t b d =>
    simp only [bstep] at hrun
    split_ifs at hrun with hp
    cases hrun
    exact ⟨h.store hp.1 hp.2 d, .write rfl fun _ => ⟨rfl, rfl⟩⟩
  | logWrite t b =>
    simp only [bstep] at hrun
    split_ifs at hrun with hp
    cases hrun
    have hmark := h.mark hp.1 hp.2 .out rfl fun _ _ => .trivial _ _ rfl rfl rfl
    rw [goto_self (by exact hp.1)] at hmark
    exact ⟨hmark, .write rfl fun _ => ⟨rfl, rfl⟩⟩
  | bwrite t b =>
    simp only [bstep] at hrun
    split_ifs at hrun with hp hh
    cases hrun
    rw [not_not] at hp
    exact ⟨h.mark hp hh (.iderw .bwrite b) rfl fun _ hh' => .working rfl rfl hh' nofun, .write rfl fun _ => ⟨rfl, rfl⟩⟩
  | brelse t b =>
    simp only [bstep] at hrun
    split_ifs at hrun with hp hh hpd
    cases hrun
    rw [not_not] at hp
    exact ⟨h.brelse hp hh (by simpa using hpd), .write rfl fun _ => ⟨rfl, rfl⟩⟩
  | go t => exact h.next hrun
  | intr => exact h.ideintr hrun

omit [DecidableEq ι] in
theorem Inv.binit (disk : Nat → Fs.Block) : Inv disk (Bio.binit disk : World ι) := by
  refine ⟨⟨⟨_, List.reverse_perm _, represents_binit⟩, fun t => .trivial _ _ rfl rfl rfl, fun b => ?_, ?_, fun _ _ => rfl,
    List.nodup_nil⟩, nofun⟩
  · refine ⟨?_, nofun, nofun, nofun, nofun, nofun⟩
    show 0 = 0 + owed (fun _ => .out) b
    simp [owed, Pc.owes]
  · rintro b c n ⟨hb, -⟩
    exact absurd hb (show ¬ 0 = ROOTDEV by decide)

end steps

theorem BRun.inv {disk : Nat → Fs.Block} {h : List (BEvent ι)} {w : World ι} (hr : BRun disk h w) :
    Inv (lastStored disk h) w := by
  induction hr with
  | start => exact .binit disk
  | @next h s s' a _ hs ih =>
    have hstep := (ih.step hs).1
    cases a <;> exact hstep

/-- Coherence, for every interleaving: the list through `next` and `prev` is a permutation of the buffers, no two
buffers are for one block, a buffer with references or `B_DIRTY` keeps its block in every step, and when `bread`
returns, the buffer has the data that was last stored to the block. -/
theorem bcache_coherent {disk : Nat → Fs.Block} {h : List (BEvent ι)} {w : World ι} (hr : BRun disk h w) :
    (∃ l, l.Perm (List.finRange NBUF) ∧ Represents w.links fun _ => l) ∧
      (∀ b c n, w.Carries b n → w.Carries c n → b = c) ∧
      (∀ a w', bstep w a = .ok w' → ∀ b, 0 < (w.buf b).refcnt ∨ (w.buf b).dirty = true →
        (w'.buf b).dev = (w.buf b).dev ∧ (w'.buf b).blockno = (w.buf b).blockno) ∧
      ∀ t n b, w.pc t = .ret n b →
        w.Carries b n ∧ w.Holding t b ∧ (w.buf b).data = lastStored disk h n := by
  have hinv := hr.inv
  refine ⟨hinv.ring, hinv.unique, fun a w' hs => (hinv.step hs).2, fun t n b hp => ?_⟩
  have hb := (hinv.proc t).target n b (by rw [hp]; rfl)
  have hh := (hinv.proc t).uses b (by rw [hp]; rfl)
  have hv : (w.buf b).valid = true := ((hinv.buf b).held t hh).2.resolve_right (by rw [hp]; exact nofun)
  refine ⟨hb, hh, ?_⟩
  rw [← hb.2]
  exact (hinv.buf b).data hb.1 hv

/-- A process reads block 5, stores 7 to it, calls `log_write` and `brelse`, and reads the block again. -/
def readTwice : List (BAct Unit) :=
  List.flatten [[.bread () 5], List.replicate 36 (.go ()), [.intr], List.replicate 2 (.go ()),
    [.store () 0 fun _ => 7, .logWrite () 0, .brelse () 0], [.go ()], [.bread () 5], List.replicate 4 (.go ())]

theorem bcache_coherent_read : ∃ h w, BRun (fun _ _ => 0) h w ∧ w.pc () = .ret 5 0 ∧ (w.buf 0).data 0 = 7 := by
  obtain ⟨h, w, hr, hp, hst⟩ := exists_run_of_exec bstep (binit fun _ _ => 0)
    (P := fun h w => w.pc () = .ret 5 0 ∧ lastStored (fun _ _ => 0) h 5 0 = 7) readTwice (by decide +kernel)
  have hdata := ((bcache_coherent hr).2.2.2 () 5 0 hp).2.2
  exact ⟨h, w, hr, hp, by rw [hdata]; exact hst⟩

end Xv6Mlfq.Bio
