import Xv6Mlfq.Vm.Holders

/-!
# Files and pipes

`FileInv R s`: the reference count of every file is the number of descriptors and of references in flight (`R`), and the open
ends of a pipe are exactly its open files, one for each end. So a pipe keeps its page exactly as long as a descriptor, or a
reference in flight, leads to it.
-/

namespace Xv6Mlfq.Vm

open Lib

def fdRef (o : Option Nat) : Multiset Nat := o.elim 0 fun f => {f}

def Proc.refs (q : Proc) : Multiset Nat := sumBelow NOFILE fun fd => fdRef (q.ofile fd)

def Sys.refs (s : Sys) : Multiset Nat := sumBelow NPROC fun p => (s.proc p).refs

def Pipe.end_ (x : Pipe) (writable : Bool) : Bool := if writable then x.writeopen else x.readopen

/-- An open file that is the end `w` of the pipe `q`. -/
structure EndOf (s : Sys) (q : Nat) (w : Bool) (f : Nat) : Prop where
  lt : f < NFILE
  type : (s.file f).type = .pipe
  pipe : (s.file f).pipe = q
  writable : (s.file f).writable = w

/-- Reference counts are right, and the open ends of a pipe are its open files. -/
structure FileInv (R : Multiset Nat) (s : Sys) : Prop where
  count : ∀ f < NFILE, (s.file f).ref = (s.refs + R).count f
  range : ∀ f ∈ s.refs + R, f < NFILE
  closed : ∀ f < NFILE, (s.file f).ref = 0 → (s.file f).type = .none
  ends : ∀ q w, ((s.pipe q).end_ w = true ↔ ∃ f, EndOf s q w f)
  one : ∀ q w f f', EndOf s q w f → EndOf s q w f' → f = f'

/-- `s` after `ofile[fd] = o` in process `p`. -/
abbrev Sys.withFd (s : Sys) (p fd : Nat) (o : Option Nat) : Sys :=
  { s with proc := Function.update s.proc p { s.proc p with ofile := Function.update (s.proc p).ofile fd o } }

section refs

variable {s : Sys} {q : Proc} {p fd : Nat} {o : Option Nat}

theorem Proc.refs_set (hfd : fd < NOFILE) :
    Proc.refs { q with ofile := Function.update q.ofile fd o } + fdRef (q.ofile fd) = q.refs + fdRef o := by
  have hchange := sumBelow_change (f := fun i => fdRef (q.ofile i))
    (g := fun i => fdRef (Function.update q.ofile fd o i)) hfd
    fun j _ hj => by rw [Function.update_of_ne hj]
  rw [Function.update_self] at hchange
  exact hchange

theorem refs_put (hp : p < NPROC) :
    Sys.refs { s with proc := Function.update s.proc p q } + (s.proc p).refs = s.refs + q.refs := by
  have hchange := sumBelow_change (f := fun i => (s.proc i).refs) (g := fun i => (Function.update s.proc p q i).refs) hp
    fun j _ hj => by rw [Function.update_of_ne hj]
  rw [Function.update_self] at hchange
  exact hchange

theorem refs_setFd (hp : p < NPROC) (hfd : fd < NOFILE) :
    (s.withFd p fd o).refs + fdRef ((s.proc p).ofile fd) = s.refs + fdRef o := by
  have hput := refs_put (s := s) (q := { s.proc p with ofile := Function.update (s.proc p).ofile fd o }) hp
  have hset := Proc.refs_set (q := s.proc p) (o := o) hfd
  generalize Proc.refs { s.proc p with ofile := Function.update (s.proc p).ofile fd o } = a at hput hset
  refine add_right_cancel (b := (s.proc p).refs) ?_
  calc (s.withFd p fd o).refs + fdRef ((s.proc p).ofile fd) + (s.proc p).refs
      = (s.withFd p fd o).refs + (s.proc p).refs + fdRef ((s.proc p).ofile fd) := by abel
    _ = s.refs + (a + fdRef ((s.proc p).ofile fd)) := by
      rw [hput]
      abel
    _ = s.refs + fdRef o + (s.proc p).refs := by
      rw [hset]
      abel

theorem mem_refs {f : Nat} (hp : p < NPROC) (hfd : fd < NOFILE) (hf : (s.proc p).ofile fd = some f) : f ∈ s.refs := by
  refine mem_sumBelow.mpr ⟨p, hp, mem_sumBelow.mpr ⟨fd, hfd, ?_⟩⟩
  rw [hf]
  exact Multiset.mem_singleton_self f

end refs

section files

variable {R R' : Multiset Nat} {s : Sys} {f : Nat} {E : Stop → Prop}

theorem count_extra (A R : Multiset Nat) (f g : Nat) :
    (A + ({f} + R)).count g = (A + R).count g + if g = f then 1 else 0 := by
  rw [show A + ({f} + R) = A + R + {f} by abel, Multiset.count_add _ (A + R), Multiset.count_singleton]

theorem FileInv.moved {s' : Sys} (h : FileInv R s) (hfile : s'.file = s.file) (hpipe : s'.pipe = s.pipe)
    (hrefs : s'.refs + R' = s.refs + R) : FileInv R' s' := by
  have hend : ∀ q w f, EndOf s' q w f ↔ EndOf s q w f := by
    intro q w f
    constructor
    · rintro ⟨hlt, htype, hq, hw⟩
      rw [hfile] at htype hq hw
      exact ⟨hlt, htype, hq, hw⟩
    · rintro ⟨hlt, htype, hq, hw⟩
      rw [← hfile] at htype hq hw
      exact ⟨hlt, htype, hq, hw⟩
  refine ⟨fun f hf => ?_, fun f hf => ?_, fun f hf h0 => ?_, fun q w => ?_, fun q w f f' hf hf' => ?_⟩
  · rw [hrefs, hfile]
    exact h.count f hf
  · rw [hrefs] at hf
    exact h.range f hf
  · rw [hfile] at h0 ⊢
    exact h.closed f hf h0
  · rw [hpipe, h.ends]
    exact exists_congr fun f => (hend q w f).symm
  · exact h.one q w f f' ((hend q w f).mp hf) ((hend q w f').mp hf')

theorem FileInv.setRef {n : Nat} (h : FileInv R s) (hf : f < NFILE) (hn : n = (s.refs + R').count f)
    (hopen : n = 0 → (s.file f).type = .none)
    (hother : ∀ g, g ≠ f → (s.refs + R').count g = (s.refs + R).count g) :
    FileInv R' { s with file := Function.update s.file f { s.file f with ref := n } } := by
  have hfile : ∀ g, (Function.update s.file f { s.file f with ref := n } g).type = (s.file g).type ∧
      (Function.update s.file f { s.file f with ref := n } g).pipe = (s.file g).pipe ∧
      (Function.update s.file f { s.file f with ref := n } g).writable = (s.file g).writable := by
    intro g
    by_cases hg : g = f
    · subst hg
      simp only [Function.update_self, and_self]
    · simp only [Function.update_of_ne hg, and_self]
  have hend : ∀ q w g, EndOf { s with file := Function.update s.file f { s.file f with ref := n } } q w g ↔
    EndOf s q w g := by
    intro q w g
    obtain ⟨h1, h2, h3⟩ := hfile g
    exact ⟨fun ⟨a, b, c, d⟩ => ⟨a, h1 ▸ b, h2 ▸ c, h3 ▸ d⟩, fun ⟨a, b, c, d⟩ => ⟨a, h1.trans b, h2.trans c, h3.trans d⟩⟩
  refine ⟨fun g hg => ?_, fun g hg => ?_, fun g hg hz => ?_, fun q w => ?_, fun q w g g' hg hg' => ?_⟩
  · by_cases hgf : g = f
    · subst hgf
      simp only [Function.update_self]
      exact hn
    · simp only [Function.update_of_ne hgf]
      show (s.file g).ref = (s.refs + R').count g
      rw [hother g hgf]
      exact h.count g hg
  · by_cases hgf : g = f
    · rwa [hgf]
    · refine h.range g (Multiset.count_pos.mp ?_)
      rw [← hother g hgf]
      exact Multiset.count_pos.mpr hg
  · by_cases hgf : g = f
    · subst hgf
      simp only [Function.update_self] at hz ⊢
      exact hopen hz
    · simp only [Function.update_of_ne hgf] at hz ⊢
      exact h.closed g hg hz
  · exact (h.ends q w).trans (exists_congr fun g => (hend q w g).symm)
  · exact h.one q w g g' ((hend q w g).mp hg) ((hend q w g').mp hg')

theorem filedup_spec (h : FileInv R s) (hf : f ∈ s.refs + R) :
    Wp (filedup f) s (fun _ s' => FileInv ({f} + R) s' ∧ s' = { s with file := s'.file }) E := by
  have hlt := h.range f hf
  have hpos := Multiset.count_pos.mpr hf
  have hcount := h.count f hlt
  unfold filedup setFile
  simp only [wp_bind, wp_look]
  rw [if_neg (by omega)]
  refine ⟨h.setRef hlt ?_ (fun h0 => absurd h0 (Nat.succ_ne_zero _)) fun g hg => ?_, rfl⟩
  · rw [hcount, count_extra, if_pos rfl]
  · rw [count_extra, if_neg hg, add_zero]

theorem filealloc_spec (h : FileInv R s) :
    Wp filealloc s (fun r s' => r.elim (s' = s) fun f => f < NFILE ∧ (s.file f).ref = 0 ∧ FileInv ({f} + R) s' ∧
      s' = { s with file := Function.update s.file f { s.file f with ref := 1 } }) E := by
  unfold filealloc setFile
  simp only [wp_bind, wp_look, id]
  cases hfind : (List.range NFILE).find? fun f => decide ((s.file f).ref = 0) with
  | none => exact rfl
  | some f =>
    have hf : f < NFILE := List.mem_range.mp (List.mem_of_find?_eq_some hfind)
    have h0 : (s.file f).ref = 0 := by simpa using List.find?_some hfind
    have hcount := h.count f hf
    refine ⟨hf, h0, h.setRef hf ?_ (fun h1 => absurd h1 (by decide)) fun g hg => ?_, rfl⟩
    · rw [count_extra, if_pos rfl, ← hcount, h0]
    · rw [count_extra, if_neg hg, add_zero]

theorem FileInv.close {P : Nat → Pipe} (h : FileInv ({f} + R) s) (hf : f < NFILE) (hlast : (s.refs + R).count f = 0)
    (hpipe : ∀ q w, (P q).end_ w = true ↔ (s.pipe q).end_ w = true ∧ ¬ EndOf s q w f) :
    FileInv R { s with file := Function.update s.file f { s.file f with ref := 0, type := .none }, pipe := P } := by
  have hend : ∀ q w g,
      EndOf { s with file := Function.update s.file f { s.file f with ref := 0, type := .none }, pipe := P } q w g ↔
      EndOf s q w g ∧ g ≠ f := by
    intro q w g
    by_cases hg : g = f
    · subst hg
      refine iff_of_false (fun h => ?_) fun h => h.2 rfl
      have ht : (Function.update s.file g { s.file g with ref := 0, type := .none } g).type = .pipe := h.type
      rw [Function.update_self] at ht
      cases ht
    · have hsame : Function.update s.file f { s.file f with ref := 0, type := .none } g = s.file g :=
        Function.update_of_ne hg _ _
      exact ⟨fun ⟨a, b, c, d⟩ => ⟨⟨a, hsame ▸ b, hsame ▸ c, hsame ▸ d⟩, hg⟩, fun ⟨⟨a, b, c, d⟩, _⟩ =>
        ⟨a, (congrArg File.type hsame).trans b, (congrArg File.pipe hsame).trans c, (congrArg File.writable hsame).trans d⟩⟩
  have hother : ∀ g, g ≠ f → (s.refs + R).count g = (s.refs + ({f} + R)).count g := by
    intro g hg
    rw [count_extra, if_neg hg, add_zero]
  refine ⟨fun g hg => ?_, fun g hg => ?_, fun g hg hz => ?_, fun q w => ?_, fun q w g g' hg hg' => ?_⟩
  · by_cases hgf : g = f
    · subst hgf
      simp only [Function.update_self]
      exact hlast.symm
    · simp only [Function.update_of_ne hgf]
      show (s.file g).ref = (s.refs + R).count g
      rw [hother g hgf]
      exact h.count g hg
  · refine h.range g ?_
    rw [show s.refs + ({f} + R) = s.refs + R + {f} by abel]
    exact Multiset.mem_add.mpr (.inl hg)
  · by_cases hgf : g = f
    · subst hgf
      simp only [Function.update_self]
    · simp only [Function.update_of_ne hgf] at hz ⊢
      exact h.closed g hg hz
  · show (P q).end_ w = true ↔ _
    rw [hpipe, h.ends]
    constructor
    · rintro ⟨⟨g, hg⟩, hno⟩
      refine ⟨g, (hend q w g).mpr ⟨hg, ?_⟩⟩
      rintro rfl
      exact hno hg
    · rintro ⟨g, hg⟩
      obtain ⟨hg, hne⟩ := (hend q w g).mp hg
      exact ⟨⟨g, hg⟩, fun hf' => hne (h.one q w g f hg hf')⟩
  · exact h.one q w g g' ((hend q w g).mp hg).1 ((hend q w g').mp hg').1

theorem end_close {x : Pipe} {w w' : Bool} : (x.close w).end_ w' = true ↔ x.end_ w' = true ∧ w' ≠ w := by
  cases w <;> cases w' <;> simp [Pipe.close, Pipe.end_]

theorem open_iff {x : Pipe} : x.Open ↔ x.end_ false = true ∨ x.end_ true = true := Iff.rfl

variable {U X : Multiset Nat}

theorem fileclose_spec (hM : MemInv U X s) (h : FileInv ({f} + R) s) :
    Wp (fileclose f) s (fun _ s' => MemInv U X s' ∧ FileInv R s' ∧ s'.proc = s.proc ∧ s'.initproc = s.initproc) E := by
  have hmem : f ∈ s.refs + ({f} + R) := by simp
  have hlt := h.range f hmem
  have hcount := h.count f hlt
  rw [count_extra, if_pos rfl] at hcount
  unfold fileclose setFile
  simp only [wp_bind, wp_look]
  rw [if_neg (by omega)]
  refine Wp.ite (fun hgt => ?_) fun hle => ?_
  · refine ⟨⟨hM.layout, hM.bal, hM.size, hM.pipe⟩, h.setRef hlt (by omega) (fun h0 => absurd h0 (by omega))
      fun g hg => ?_, rfl, rfl⟩
    rw [count_extra, if_neg hg, add_zero]
  · have hlast : (s.refs + R).count f = 0 := by omega
    simp only [wp_bind, wp_update]
    refine Wp.ite (fun htype => ?_) fun htype => ?_
    · -- the file is an end of a pipe
      have hend : EndOf s (s.file f).pipe (s.file f).writable f := ⟨hlt, htype, rfl, rfl⟩
      have hopen := (h.ends _ _).mpr ⟨f, hend⟩
      have hwas : (s.pipe (s.file f).pipe).Open := by
        rw [open_iff]
        cases hw : (s.file f).writable with
        | false => exact .inl (hw ▸ hopen)
        | true => exact .inr (hw ▸ hopen)
      have hpipe : ∀ q w, (Function.update s.pipe (s.file f).pipe
        ((s.pipe (s.file f).pipe).close (s.file f).writable) q).end_ w = true ↔
          (s.pipe q).end_ w = true ∧ ¬ EndOf s q w f := by
        intro q w
        by_cases hq : q = (s.file f).pipe
        · subst hq
          rw [Function.update_self, end_close]
          exact and_congr_right fun _ => not_congr ⟨fun hw => ⟨hlt, htype, rfl, hw.symm⟩, fun he => he.writable.symm⟩
        · rw [Function.update_of_ne hq]
          exact ⟨fun h => ⟨h, fun he => hq he.pipe.symm⟩, fun h => h.1⟩
      have hF := h.close hlt hlast hpipe
      unfold pipeclose setPipe
      simp only [wp_bind, wp_look, wp_update]
      refine Wp.ite (fun hboth => ?_) fun hone => ?_
      · have hclosed : ¬ ((s.pipe (s.file f).pipe).close (s.file f).writable).Open := by
          rintro (ho | ho)
          · rw [hboth.1] at ho
            cases ho
          · rw [hboth.2] at ho
            cases ho
        have hM' := hM.closePipe hwas hclosed
        have hM'' : MemInv U ({(s.file f).pipe} + X) { s with
          file := Function.update s.file f { s.file f with ref := 0, type := .none },
          pipe := Function.update s.pipe (s.file f).pipe ((s.pipe (s.file f).pipe).close (s.file f).writable) } :=
          ⟨hM'.layout, hM'.bal, hM'.size, hM'.pipe⟩
        refine hM''.kfree.imp fun _ s' hpost => ?_
        obtain ⟨hMs, hs'⟩ := hpost
        refine ⟨hMs, ?_, ?_, ?_⟩
        · rw [hs']
          exact hF.moved rfl rfl rfl
        · rw [hs']
        · rw [hs']
      · have hM' := hM.keepPipe (q := (s.file f).pipe) (x := (s.pipe (s.file f).pipe).close (s.file f).writable) ?_
        · exact ⟨⟨hM'.layout, hM'.bal, hM'.size, hM'.pipe⟩, hF, rfl, rfl⟩
        · refine iff_of_true ?_ hwas
          by_contra hno
          refine hone ⟨?_, ?_⟩
          · exact Bool.eq_false_iff.mpr fun ho => hno (.inl ho)
          · exact Bool.eq_false_iff.mpr fun ho => hno (.inr ho)
    · refine ⟨⟨hM.layout, hM.bal, hM.size, hM.pipe⟩, h.close (P := s.pipe) hlt hlast fun q w => ?_, rfl, rfl⟩
      exact ⟨fun h => ⟨h, fun he => htype he.type⟩, fun h => h.1⟩

theorem MemInv.files {F : Nat → File} (h : MemInv U X s) : MemInv U X { s with file := F } :=
  ⟨h.layout, h.bal, h.size, h.pipe⟩

theorem FileInv.openPipe {f0 f1 q : Nat} (h : FileInv R s) (h0 : f0 < NFILE) (h1 : f1 < NFILE) (hne : f1 ≠ f0)
    (ht0 : (s.file f0).type = .none) (ht1 : (s.file f1).type = .none) (hr0 : (s.file f0).ref ≠ 0) (hr1 : (s.file f1).ref ≠ 0)
    (hq : ¬ (s.pipe q).Open) :
    FileInv R { s with
      pipe := Function.update s.pipe q ⟨true, true⟩
      file := Function.update (Function.update s.file f0 { s.file f0 with type := .pipe, writable := false, pipe := q })
        f1 { s.file f1 with type := .pipe, writable := true, pipe := q } } := by
  generalize hfile : Function.update (Function.update s.file f0
    { s.file f0 with type := .pipe, writable := false, pipe := q })
    f1 { s.file f1 with type := .pipe, writable := true, pipe := q } = file
  have hf1 : file f1 = { s.file f1 with type := .pipe, writable := true, pipe := q } := by
    rw [← hfile, Function.update_self]
  have hf0 : file f0 = { s.file f0 with type := .pipe, writable := false, pipe := q } := by
    rw [← hfile, Function.update_of_ne hne.symm, Function.update_self]
  have hg : ∀ g, g ≠ f0 → g ≠ f1 → file g = s.file g := by
    intro g hg0 hg1
    rw [← hfile, Function.update_of_ne hg1, Function.update_of_ne hg0]
  have href : ∀ g, (file g).ref = (s.file g).ref := by
    intro g
    by_cases hg0 : g = f0
    · rw [hg0, hf0]
    · by_cases hg1 : g = f1
      · rw [hg1, hf1]
      · rw [hg g hg0 hg1]
  -- the ends are those there were and the two new ones
  have hend : ∀ q' w g, EndOf { s with pipe := Function.update s.pipe q ⟨true, true⟩, file := file } q' w g ↔
      EndOf s q' w g ∨ q' = q ∧ g = if w then f1 else f0 := by
    intro q' w g
    by_cases hg0 : g = f0
    · subst hg0
      constructor
      · rintro ⟨-, -, hp, hw⟩
        simp only [hf0] at hp hw
        exact .inr ⟨hp.symm, by rw [← hw]; rfl⟩
      · rintro (⟨-, ht, -⟩ | ⟨rfl, hw⟩)
        · rw [ht0] at ht
          cases ht
        · have hw' : w = false := by
            by_contra hw'
            rw [if_pos (by simpa using hw')] at hw
            exact hne hw.symm
          exact ⟨h0, by simp only [hf0], by simp only [hf0], by simp only [hf0, hw']⟩
    · by_cases hg1 : g = f1
      · subst hg1
        constructor
        · rintro ⟨-, -, hp, hw⟩
          simp only [hf1] at hp hw
          exact .inr ⟨hp.symm, by rw [← hw]; rfl⟩
        · rintro (⟨-, ht, -⟩ | ⟨rfl, hw⟩)
          · rw [ht1] at ht
            cases ht
          · have hw' : w = true := by
              by_contra hw'
              rw [if_neg hw'] at hw
              exact hne hw
            exact ⟨h1, by simp only [hf1], by simp only [hf1], by simp only [hf1, hw']⟩
      · have hsame := hg g hg0 hg1
        constructor
        · rintro ⟨hlt, ht, hp, hw⟩
          simp only [hsame] at ht hp hw
          exact .inl ⟨hlt, ht, hp, hw⟩
        · rintro (⟨hlt, ht, hp, hw⟩ | ⟨-, hif⟩)
          · exact ⟨hlt, by simp only [hsame, ht], by simp only [hsame, hp], by simp only [hsame, hw]⟩
          · split_ifs at hif
            · exact absurd hif hg1
            · exact absurd hif hg0
  have hnone : ∀ w g, ¬ EndOf s q w g := by
    intro w g he
    have ho := (h.ends q w).mpr ⟨g, he⟩
    rw [open_iff, not_or] at hq
    cases w with
    | false => exact hq.1 ho
    | true => exact hq.2 ho
  refine ⟨fun g hlt => ?_, h.range, fun g hlt hz => ?_, fun q' w => ?_, fun q' w g g' he he' => ?_⟩
  · show (file g).ref = _
    rw [href]
    exact h.count g hlt
  · have hz' : (s.file g).ref = 0 := (href g).symm.trans hz
    have hg0 : g ≠ f0 := fun he => hr0 (he ▸ hz')
    have hg1 : g ≠ f1 := fun he => hr1 (he ▸ hz')
    show (file g).type = .none
    rw [hg g hg0 hg1]
    exact h.closed g hlt hz'
  · by_cases hq' : q' = q
    · subst hq'
      simp only [Function.update_self]
      refine iff_of_true ?_ ⟨if w then f1 else f0, (hend _ w _).mpr (.inr ⟨rfl, rfl⟩)⟩
      cases w <;> rfl
    · simp only [Function.update_of_ne hq', h.ends]
      refine exists_congr fun g => ?_
      rw [hend]
      exact ⟨.inl, fun hor => hor.resolve_right fun hr => hq' hr.1⟩
  · rcases (hend q' w g).mp he with hold | ⟨rfl, rfl⟩
    · rcases (hend q' w g').mp he' with hold' | ⟨rfl, rfl⟩
      · exact h.one q' w g g' hold hold'
      · exact absurd hold (hnone w g)
    · rcases (hend _ w g').mp he' with hold' | ⟨-, rfl⟩
      · exact absurd hold' (hnone w g')
      · rfl

theorem pipealloc_spec (hM : MemInv U X s) (h : FileInv R s) :
    Wp pipealloc s (fun r s' => MemInv U X s' ∧ s'.proc = s.proc ∧ s'.initproc = s.initproc ∧
      r.elim (FileInv R s') fun x => FileInv ({x.1} + ({x.2} + R)) s') E := by
  unfold pipealloc
  refine Wp.bind (filealloc_spec h) ?_
  rintro (_ | f0) s₁ hr
  · cases hr
    exact ⟨hM, rfl, rfl, h⟩
  obtain ⟨hlt0, hz0, h₁, rfl⟩ := hr
  have hM₁ := hM.files (F := Function.update s.file f0 { s.file f0 with ref := 1 })
  refine Wp.bind (filealloc_spec h₁) ?_
  rintro (_ | f1) s₂ hr
  · cases hr
    refine Wp.bind (fileclose_spec hM₁ h₁) ?_
    rintro - s₂ ⟨hM₂, h₂, hp₂, hi₂⟩
    exact ⟨hM₂, hp₂, hi₂, h₂⟩
  obtain ⟨hlt1, hz1, h₂, hs₂⟩ := hr
  have hne : f1 ≠ f0 := by
    rintro rfl
    simp only [Function.update_self] at hz1
    cases hz1
  have hM₂ : MemInv U X s₂ := hs₂ ▸ hM₁.files
  have hproc₂ : s₂.proc = s.proc ∧ s₂.initproc = s.initproc := by
    rw [hs₂]
    exact ⟨rfl, rfl⟩
  -- both files have one reference and no type
  have hf0 : (s₂.file f0).ref ≠ 0 ∧ (s₂.file f0).type = .none := by
    rw [hs₂]
    simp only [Function.update_of_ne hne.symm, Function.update_self]
    exact ⟨Nat.one_ne_zero, h.closed f0 hlt0 hz0⟩
  have hf1 : (s₂.file f1).ref ≠ 0 ∧ (s₂.file f1).type = .none := by
    rw [hs₂]
    simp only [Function.update_of_ne hne] at hz1 ⊢
    simp only [Function.update_self]
    exact ⟨Nat.one_ne_zero, h.closed f1 hlt1 hz1⟩
  clear hs₂
  refine Wp.bind hM₂.kalloc ?_
  rintro (_ | q) s₃ ⟨hs₃, hM₃⟩
  · have h₃ : FileInv ({f0} + ({f1} + R)) s₃ := by
      rw [hs₃]
      refine h₂.moved rfl rfl ?_
      show s₂.refs + _ = _
      abel
    refine Wp.bind (fileclose_spec hM₃ h₃) ?_
    rintro - s₄ ⟨hM₄, h₄, hp₄, hi₄⟩
    refine Wp.bind (fileclose_spec hM₄ h₄) ?_
    rintro - s₅ ⟨hM₅, h₅, hp₅, hi₅⟩
    rw [hs₃] at hp₄ hi₄
    exact ⟨hM₅, hp₅.trans (hp₄.trans hproc₂.1), hi₅.trans (hi₄.trans hproc₂.2), h₅⟩
  · have h₃ : FileInv ({f0} + ({f1} + R)) s₃ := by
      rw [hs₃]
      refine h₂.moved rfl rfl ?_
      show s₂.refs + _ = _
      abel
    have hno := hM₃.not_open
    have hfile₃ : s₃.file = s₂.file := by rw [hs₃]
    rw [← hfile₃] at hf0 hf1
    have hopen := h₃.openPipe hlt0 hlt1 hne hf0.2 hf1.2 hf0.1 hf1.1 hno
    have hMopen := hM₃.openPipe (x := ⟨true, true⟩) hno (.inl rfl)
    unfold setPipe setFile
    simp only [wp_bind, wp_update, wp_pure, Function.update_of_ne hne]
    refine ⟨hMopen.files, ?_, ?_, hopen⟩
    · rw [hs₃]
      exact hproc₂.1
    · rw [hs₃]
      exact hproc₂.2

variable {p fd : Nat}

theorem MemInv.setFd {o : Option Nat} (h : MemInv U X s) : MemInv U X (s.withFd p fd o) := by
  refine h.procs fun i _ => ?_
  by_cases hi : i = p
  · subst hi
    rw [Function.update_self]
    exact ⟨rfl, fun hhas => ⟨hhas, rfl⟩⟩
  · rw [Function.update_of_ne hi]
    exact ⟨rfl, fun hhas => ⟨hhas, rfl⟩⟩

theorem FileInv.install (h : FileInv ({f} + R) s) (hp : p < NPROC) (hfd : fd < NOFILE) (hnone : (s.proc p).ofile fd = none) :
    FileInv R (s.withFd p fd (some f)) := by
  have hrefs : (s.withFd p fd (some f)).refs + fdRef ((s.proc p).ofile fd) = s.refs + {f} := refs_setFd hp hfd
  rw [hnone] at hrefs
  refine h.moved rfl rfl ?_
  rw [← add_assoc, ← hrefs]
  exact congrArg (· + R) (add_zero _).symm

theorem FileInv.remove (h : FileInv R s) (hp : p < NPROC) (hfd : fd < NOFILE) (hsome : (s.proc p).ofile fd = some f) :
    FileInv ({f} + R) (s.withFd p fd none) := by
  have hrefs : (s.withFd p fd none).refs + fdRef ((s.proc p).ofile fd) = s.refs + 0 := refs_setFd hp hfd
  rw [hsome, add_zero] at hrefs
  refine h.moved rfl rfl ?_
  rw [← add_assoc]
  exact congrArg (· + R) hrefs

theorem fdalloc_spec (h : FileInv ({f} + R) s) (hp : p < NPROC) :
    Wp (fdalloc p f) s (fun r s' => r.elim (s' = s) fun fd => fd < NOFILE ∧ FileInv R s' ∧ s' = s.withFd p fd (some f))
      E := by
  unfold fdalloc
  simp only [wp_bind, wp_look]
  cases hfind : (List.range NOFILE).find? fun fd => ((s.proc p).ofile fd).isNone with
  | none => exact rfl
  | some fd =>
    have hfd : fd < NOFILE := List.mem_range.mp (List.mem_of_find?_eq_some hfind)
    have hnone : (s.proc p).ofile fd = none := by simpa using List.find?_some hfind
    exact ⟨hfd, h.install hp hfd hnone, rfl⟩

theorem fileclose_procs {proc : Nat → Proc} {Q : Unit → Sys → Prop} (h : Wp (fileclose f) { s with proc := proc } Q E) :
    Wp (fileclose f) s (fun a s' => Q a { s' with proc := proc }) E := by
  unfold fileclose pipeclose setFile setPipe at *
  simp only [wp_bind, wp_look, wp_ite, wp_update, wp_mem, wp_stop, wp_pure] at h ⊢
  exact h

theorem closeFd_spec (hM : MemInv U X s) (h : FileInv R s) (hp : p < NPROC) (hfd : fd < NOFILE) :
    Wp (closeFd p fd) s (fun _ s' => MemInv U X s' ∧ FileInv R s' ∧ s'.proc = (s.withFd p fd none).proc ∧
      s'.initproc = s.initproc) E := by
  unfold closeFd
  simp only [wp_bind, wp_look]
  cases hf : (s.proc p).ofile fd with
  | none =>
    refine ⟨hM, h, ?_, rfl⟩
    show s.proc = Function.update s.proc p _
    rw [← hf, Function.update_eq_self, Function.update_eq_self]
  | some f =>
    have hM' : MemInv U X (s.withFd p fd none) := hM.setFd
    have hclose : Wp (fileclose f) s (fun _ s' => s'.proc = s.proc) fun _ => True := by
      unfold fileclose pipeclose setFile setPipe
      simp only [wp_bind, wp_look, wp_ite, wp_update, wp_mem, wp_stop, wp_pure, implies_true, true_and]
      exact fun _ _ => ⟨fun _ => ⟨fun _ => .of_forall fun _ _ => trivial, trivial⟩, trivial⟩
    unfold setFd setProc
    simp only [wp_bind, wp_update]
    refine (Wp.keep (fileclose_procs (fileclose_spec hM' (h.remove hp hfd hf))) hclose).imp fun _ s' hpost => ?_
    obtain ⟨⟨hMs, hFs, -, hi⟩, hproc⟩ := hpost
    have hs' : Function.update s'.proc p { s'.proc p with ofile := Function.update (s'.proc p).ofile fd none } =
        (s.withFd p fd none).proc := by rw [hproc]
    rw [hs']
    exact ⟨hMs, hFs, rfl, hi⟩

end files

end Xv6Mlfq.Vm
