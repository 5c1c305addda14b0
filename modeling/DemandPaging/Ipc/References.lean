/-
The references of open files are their descriptors. The invariant counts, inside a call, also the
references that the call itself has: a file that has no descriptor yet, or no longer. The pipes are
followed along the set of their open ends.
-/
import DemandPaging.Ipc.Files
import DemandPaging.Lib.Outcome

namespace DemandPaging.Ipc

open FileSys (FdType FileIdx Fd nFile nOFile)
open Function Tally Outcome

/-! ## Pipes -/

/-- The flag of one end. -/
def Pipe.isOpen (p : Pipe) (writable : Bool) : Bool := if writable then p.writeopen else p.readopen

theorem pipeclose_isOpen (p : Pipe) (w w' : Bool) :
    (pipeclose p w).1.isOpen w' = if w' = w then false else p.isOpen w' := by
  cases w <;> cases w' <;> rfl

theorem pipeclose_gone (p : Pipe) (w : Bool) : (pipeclose p w).2 = !p.isOpen (!w) := by
  cases w <;> simp [pipeclose, Pipe.isOpen]

namespace Files

/-- The pages of pipes: each end is one file, the flags tell which ends are open, and a page with an open
end is not free and has been freed once less than it has become a pipe. -/
structure Pipes (s : Files) : Prop where
  once : ∀ k w f g, s.IsEnd k w f → s.IsEnd k w g → f = g
  flag : ∀ k, s.InUse k → ∀ w, (s.pipes k).isOpen w = true ↔ ∃ f, s.IsEnd k w f
  page : ∀ k, s.InUse k → k ∉ s.free
  nodup : s.free.Nodup
  count : ∀ k, s.made k = s.freed k + if s.InUse k then 1 else 0

variable {s s' t : Files} {p q : ProcIdx} {f g : FileIdx} {fd : Fd} {k : Nat} {w : Bool}

theorem inUse_congr (hend : ∀ w f, t.IsEnd k w f ↔ s.IsEnd k w f) : t.InUse k ↔ s.InUse k := by
  unfold InUse
  simp only [hend]

/-- The pages and the counts are the same. -/
structure SamePages (s t : Files) : Prop where
  pipes : t.pipes = s.pipes
  free : t.free = s.free
  made : t.made = s.made
  freed : t.freed = s.freed

theorem Pipes.congr (h : Pipes s) (hend : ∀ k w f, t.IsEnd k w f ↔ s.IsEnd k w f) (hp : SamePages s t) : Pipes t := by
  have huse : ∀ k, t.InUse k ↔ s.InUse k := fun k => inUse_congr (hend k)
  constructor
  · intro k w f g hf hg
    exact h.once k w f g ((hend ..).1 hf) ((hend ..).1 hg)
  · intro k hk w
    rw [hp.pipes, h.flag k ((huse k).1 hk)]
    simp only [hend]
  · intro k hk
    rw [hp.free]
    exact h.page k ((huse k).1 hk)
  · rw [hp.free]
    exact h.nodup
  · intro k
    rw [hp.made, hp.freed, h.count k]
    simp only [huse]

/-- Of the ends of the pipes of `s`, the file `f` is one that `t` does not have any more. -/
structure Closing (s t : Files) (k : Nat) (w : Bool) (f : FileIdx) : Prop where
  isEnd : s.IsEnd k w f
  same : SamePages s t
  ends : ∀ k' w' g, t.IsEnd k' w' g ↔ s.IsEnd k' w' g ∧ g ≠ f

namespace Closing

variable (h : Closing s t k w f)

include h

theorem inUse_other {k' : Nat} (hk : k' ≠ k) : t.InUse k' ↔ s.InUse k' := by
  refine inUse_congr fun w' g => ?_
  rw [h.ends]
  refine and_iff_left_of_imp ?_
  rintro hg rfl
  exact hk (hg.2.2.1.symm.trans h.isEnd.2.2.1)

theorem inUse : s.InUse k := ⟨w, f, h.isEnd⟩

theorem inUse_before {k' : Nat} (hk : t.InUse k') : s.InUse k' := by
  obtain ⟨w', g, hg⟩ := hk
  exact ⟨w', g, ((h.ends ..).1 hg).1⟩

/-- The ends that are left. -/
theorem exists_end (hs : Pipes s) (k' : Nat) (w' : Bool) :
    (∃ g, t.IsEnd k' w' g) ↔ (∃ g, s.IsEnd k' w' g) ∧ ¬(k' = k ∧ w' = w) := by
  constructor
  · rintro ⟨g, hg⟩
    obtain ⟨hg, hne⟩ := (h.ends ..).1 hg
    refine ⟨⟨g, hg⟩, ?_⟩
    rintro ⟨rfl, rfl⟩
    exact hne (hs.once k' w' g f hg h.isEnd)
  · rintro ⟨⟨g, hg⟩, hne⟩
    refine ⟨g, (h.ends ..).2 ⟨hg, ?_⟩⟩
    rintro rfl
    exact hne ⟨hg.2.2.1.symm.trans h.isEnd.2.2.1, hg.2.2.2.symm.trans h.isEnd.2.2.2⟩

/-- Of the pipe the other end is left, if it was open. -/
theorem inUse_iff (hs : Pipes s) : t.InUse k ↔ (s.pipes k).isOpen (!w) = true := by
  rw [hs.flag k h.inUse]
  constructor
  · rintro ⟨w', hw'⟩
    obtain ⟨hg, hne⟩ := (h.exists_end hs k w').1 hw'
    have hw : w' = !w := by
      rw [Bool.eq_not]
      exact fun hw => hne ⟨rfl, hw⟩
    exact hw ▸ hg
  · intro hg
    exact ⟨!w, (h.exists_end hs k (!w)).2 ⟨hg, by simp⟩⟩

theorem flag (hs : Pipes s) {k' : Nat} (hk' : t.InUse k') (w' : Bool) :
    (update t.pipes k (pipeclose (t.pipes k) w).1 k').isOpen w' = true ↔ ∃ g, t.IsEnd k' w' g := by
  rw [h.exists_end hs, ← hs.flag k' (h.inUse_before hk'), h.same.pipes]
  by_cases hk : k' = k
  · subst hk
    rw [update_self, pipeclose_isOpen]
    by_cases hw : w' = w
    · rw [if_pos hw]
      simp [hw]
    · rw [if_neg hw]
      simp [hw]
  · rw [update_of_ne hk]
    simp [hk]

end Closing

/-- The last reference of an end goes away. -/
theorem Pipes.closePipe (hs : Pipes s) (h : Closing s t k w f) : Pipes (t.closePipe k w) := by
  have honce : ∀ k' w' g g', t.IsEnd k' w' g → t.IsEnd k' w' g' → g = g' := fun k' w' g g' hg hg' =>
    hs.once k' w' g g' ((h.ends ..).1 hg).1 ((h.ends ..).1 hg').1
  have hpage : ∀ k', t.InUse k' → k' ∉ t.free := by
    intro k' hk'
    rw [h.same.free]
    exact hs.page k' (h.inUse_before hk')
  have hnodup : t.free.Nodup := by
    rw [h.same.free]
    exact hs.nodup
  have hflag := fun k' (hk' : t.InUse k') => h.flag hs hk'
  have hgone := pipeclose_gone (t.pipes k) w
  rw [h.same.pipes] at hgone
  unfold Files.closePipe
  generalize hc : pipeclose (t.pipes k) w = c at hflag
  obtain ⟨pc, gone⟩ := c
  rw [← h.same.pipes, hc, h.same.pipes] at hgone
  dsimp only at hgone ⊢
  split
  · next hg =>
    have hclosed : ¬t.InUse k := by
      rw [h.inUse_iff hs]
      rw [hg] at hgone
      simpa using hgone.symm
    constructor
    · exact honce
    · exact hflag
    · intro k' hk'
      refine List.not_mem_cons_of_ne_of_not_mem ?_ (hpage k' hk')
      rintro rfl
      exact hclosed hk'
    · refine List.nodup_cons.2 ⟨?_, hnodup⟩
      show k ∉ t.free
      rw [h.same.free]
      exact hs.page k h.inUse
    · intro k'
      show t.made k' = update t.freed k (t.freed k + 1) k' + if t.InUse k' then 1 else 0
      rw [h.same.made, h.same.freed, hs.count k']
      by_cases hk : k' = k
      · subst hk
        rw [update_self, if_neg hclosed, if_pos h.inUse]
      · rw [update_of_ne hk]
        simp only [h.inUse_other hk]
  · next hg =>
    have hopen : t.InUse k := by
      rw [h.inUse_iff hs]
      rw [Bool.eq_false_iff.2 hg] at hgone
      simpa using hgone.symm
    constructor
    · exact honce
    · exact hflag
    · exact hpage
    · exact hnodup
    · intro k'
      show t.made k' = t.freed k' + if t.InUse k' then 1 else 0
      rw [h.same.made, h.same.freed, hs.count k']
      by_cases hk : k' = k
      · subst hk
        rw [if_pos hopen, if_pos h.inUse]
      · simp only [h.inUse_other hk]

/-- Two new files become the ends of a new pipe. -/
theorem Pipes.makePipe {fl : List Nat} (h : Pipes s) (hfree : s.free = k :: fl) (hne : f ≠ g)
    (hf : (s.ftable f).ref = 1 ∧ (s.ftable f).type = .none) (hg : (s.ftable g).ref = 1 ∧ (s.ftable g).type = .none) :
    Pipes (s.makePipe f g k fl) := by
  have hf' : (s.makePipe f g k fl).ftable f = { s.ftable f with type := .pipe, readable := true, writable := false, pipe := k } := by
    show update _ g _ f = _
    rw [update_of_ne hne]
    exact update_self ..
  have hg' : (s.makePipe f g k fl).ftable g = { s.ftable g with type := .pipe, readable := false, writable := true, pipe := k } := by
    show update _ g _ g = _
    rw [update_self]
    show ({ update s.ftable f _ g with type := .pipe, readable := false, writable := true, pipe := k } : File) = _
    rw [update_of_ne hne.symm]
  have hother : ∀ x, x ≠ f → x ≠ g → (s.makePipe f g k fl).ftable x = s.ftable x := by
    intro x hxf hxg
    show update _ g _ x = _
    rw [update_of_ne hxg]
    exact update_of_ne hxf ..
  have hnone : ∀ k' w', ¬s.IsEnd k' w' f ∧ ¬s.IsEnd k' w' g := by
    intro k' w'
    constructor
    · rintro ⟨ht, -⟩
      rw [hf.2] at ht
      cases ht
    · rintro ⟨ht, -⟩
      rw [hg.2] at ht
      cases ht
  have hend : ∀ k' w' x, (s.makePipe f g k fl).IsEnd k' w' x ↔ s.IsEnd k' w' x ∨ k' = k ∧ x = if w' then g else f := by
    intro k' w' x
    have hpos : 0 < (s.ftable f).ref ∧ 0 < (s.ftable g).ref := by omega
    by_cases hxf : x = f
    · subst hxf
      rw [or_iff_right (hnone k' w').1]
      unfold IsEnd
      rw [hf']
      cases w' with
      | true => exact ⟨fun hx => absurd hx.2.2.2 Bool.false_ne_true, fun hx => absurd hx.2 hne⟩
      | false => exact ⟨fun hx => ⟨hx.2.2.1.symm, rfl⟩, fun hx => ⟨rfl, hpos.1, hx.1.symm, rfl⟩⟩
    · by_cases hxg : x = g
      · subst hxg
        rw [or_iff_right (hnone k' w').2]
        unfold IsEnd
        rw [hg']
        cases w' with
        | true => exact ⟨fun hx => ⟨hx.2.2.1.symm, rfl⟩, fun hx => ⟨rfl, hpos.2, hx.1.symm, rfl⟩⟩
        | false => exact ⟨fun hx => absurd hx.2.2.2.symm Bool.false_ne_true, fun hx => absurd hx.2 hxf⟩
      · unfold IsEnd
        rw [hother x hxf hxg]
        cases w' <;> simp [hxf, hxg]
  have hnew : ¬s.InUse k := fun hk => h.page k hk (by rw [hfree]; exact List.mem_cons_self)
  have hempty : ∀ w' x, ¬s.IsEnd k w' x := fun w' x hx => hnew ⟨w', x, hx⟩
  have huse : ∀ k', (s.makePipe f g k fl).InUse k' ↔ s.InUse k' ∨ k' = k := by
    intro k'
    unfold InUse
    simp only [hend]
    constructor
    · rintro ⟨w', x, hx | ⟨hk, -⟩⟩
      · exact .inl ⟨w', x, hx⟩
      · exact .inr hk
    · rintro (⟨w', x, hx⟩ | hk)
      · exact ⟨w', x, .inl hx⟩
      · exact ⟨true, g, .inr ⟨hk, rfl⟩⟩
  have hnodup := h.nodup
  rw [hfree, List.nodup_cons] at hnodup
  constructor
  · intro k' w' x y hx hy
    rcases (hend ..).1 hx with hx' | ⟨rfl, rfl⟩
    · rcases (hend ..).1 hy with hy' | ⟨rfl, -⟩
      · exact h.once k' w' x y hx' hy'
      · exact absurd hx' (hempty w' x)
    · rcases (hend ..).1 hy with hy' | ⟨-, rfl⟩
      · exact absurd hy' (hempty w' y)
      · rfl
  · intro k' hk' w'
    simp only [hend]
    by_cases hk : k' = k
    · subst hk
      have hnewpipe : (s.makePipe f g k' fl).pipes k' = Ipc.pipealloc (s.pipes k').data := update_self ..
      rw [hnewpipe]
      constructor
      · intro
        exact ⟨_, .inr ⟨rfl, rfl⟩⟩
      · intro
        cases w' <;> rfl
    · have hold : (s.makePipe f g k fl).pipes k' = s.pipes k' := update_of_ne hk ..
      rw [hold, h.flag k' (((huse k').1 hk').resolve_right hk)]
      simp [hk]
  · intro k' hk' hmem
    have hmem : k' ∈ fl := hmem
    rcases (huse k').1 hk' with hk' | rfl
    · exact h.page k' hk' (by rw [hfree]; exact List.mem_cons_of_mem _ hmem)
    · exact hnodup.1 hmem
  · exact hnodup.2
  · intro k'
    show update s.made k (s.made k + 1) k' = s.freed k' + _
    simp only [huse]
    by_cases hk : k' = k
    · subst hk
      rw [update_self, h.count k', if_neg hnew]
      simp
    · rw [update_of_ne hk, h.count k']
      simp [hk]

/-! ## References -/

/-- The call has one more reference to `f`. -/
def own (f : FileIdx) (K : FileIdx → Nat) : FileIdx → Nat := fun g => K g + if g = f then 1 else 0

/-- The references of each file are its descriptors and those `K` that the call has. -/
structure Refs (K : FileIdx → Nat) (s : Files) : Prop where
  eq : ∀ f, (s.ftable f).ref = tally s.ofile f + K f
  idle : ∀ f, (s.ftable f).ref = 0 → (s.ftable f).type = .none

structure Sound (K : FileIdx → Nat) (s : Files) : Prop extends Refs K s where
  pipes : Pipes s

/-- Only descriptors of `p` have changed. -/
structure Kept (p : ProcIdx) (s s' : Files) : Prop where
  alive : s'.alive = s.alive
  other : ∀ r fd, r ≠ p → s'.ofile (r, fd) = s.ofile (r, fd)

theorem Kept.refl (p : ProcIdx) (s : Files) : Kept p s s := ⟨rfl, fun _ _ _ => rfl⟩

theorem Kept.trans (h : Kept p s s') (h' : Kept p s' t) : Kept p s t :=
  ⟨h'.alive.trans h.alive, fun r fd hr => (h'.other r fd hr).trans (h.other r fd hr)⟩

theorem Kept.update (s : Files) (fd : Fd) (o : Option FileIdx) : Kept p s { s with ofile := update s.ofile (p, fd) o } := by
  constructor
  · rfl
  · intro r fd' hr
    refine update_of_ne ?_ ..
    rintro ⟨⟩
    exact hr rfl

variable {K K' : FileIdx → Nat}

theorem Sound.put (h : Sound (own f K) s) {x : ProcIdx × Fd} (hx : s.ofile x = none) :
    Sound K { s with ofile := update s.ofile x (some f) } := by
  refine ⟨⟨fun g => ?_, h.idle⟩, h.pipes.congr (fun _ _ _ => Iff.rfl) ⟨rfl, rfl, rfl, rfl⟩⟩
  show (s.ftable g).ref = tally (update s.ofile x (some f)) g + K g
  rw [h.eq g, tally_put hx, own]
  omega

theorem Sound.clear (h : Sound K s) {x : ProcIdx × Fd} (hx : s.ofile x = some f) :
    Sound (own f K) { s with ofile := update s.ofile x none } := by
  refine ⟨⟨fun g => ?_, h.idle⟩, h.pipes.congr (fun _ _ _ => Iff.rfl) ⟨rfl, rfl, rfl, rfl⟩⟩
  show (s.ftable g).ref = tally (update s.ofile x none) g + own f K g
  rw [h.eq g, ← tally_clear hx g, own]
  omega

/-- A file that is replaced. -/
theorem Refs.setFile {ff : File} (h : Refs K s) (href : ff.ref + K f = (s.ftable f).ref + K' f) (hK : ∀ g, g ≠ f → K' g = K g)
    (hidle : ff.ref = 0 → ff.type = .none) : Refs K' (s.setFile f ff) := by
  have hother : ∀ g, g ≠ f → (s.setFile f ff).ftable g = s.ftable g := fun g hg => update_of_ne hg ..
  have hself : (s.setFile f ff).ftable f = ff := update_self ..
  constructor
  · intro g
    show _ = tally s.ofile g + K' g
    by_cases hg : g = f
    · subst hg
      have := h.eq g
      rw [hself]
      omega
    · rw [hother g hg, hK g hg, h.eq g]
  · intro g hg
    by_cases hgf : g = f
    · subst hgf
      rw [hself] at hg ⊢
      exact hidle hg
    · rw [hother g hgf] at hg ⊢
      exact h.idle g hg

theorem own_ne (hg : g ≠ f) : own f K g = K g := by rw [own, if_neg hg, Nat.add_zero]

theorem own_self : own f K f = K f + 1 := by rw [own, if_pos rfl]

/-- What a file is an end of. -/
theorem isEnd_setFile {ff : File} : (s.setFile f ff).IsEnd k w g ↔
    if g = f then ff.type = .pipe ∧ 0 < ff.ref ∧ ff.pipe = k ∧ ff.writable = w else s.IsEnd k w g := by
  by_cases hg : g = f
  · subst hg
    rw [if_pos rfl, IsEnd, show (s.setFile g ff).ftable g = ff from update_self ..]
  · rw [if_neg hg, IsEnd, show (s.setFile f ff).ftable g = s.ftable g from update_of_ne hg ..]
    rfl

/-- A change of a file that makes it an end of no other pipe than before. -/
theorem Pipes.setFile {ff : File} (h : Pipes s)
    (hf : ∀ k w, (ff.type = .pipe ∧ 0 < ff.ref ∧ ff.pipe = k ∧ ff.writable = w) ↔ s.IsEnd k w f) : Pipes (s.setFile f ff) := by
  refine h.congr (fun k w g => ?_) ⟨rfl, rfl, rfl, rfl⟩
  rw [isEnd_setFile]
  split
  · next hg =>
    subst hg
    exact hf k w
  · rfl

theorem Sound.filealloc (h : Sound K s) (ha : s.filealloc = (some f, s')) : Sound (own f K) s' ∧ (s'.ftable f).ref = 1 ∧
    (s'.ftable f).type = .none ∧ (∀ g, g ≠ f → s'.ftable g = s.ftable g) ∧ (s.ftable f).ref = 0 ∧ s'.ofile = s.ofile ∧ s'.alive = s.alive := by
  unfold Files.filealloc at ha
  split at ha
  · next f₀ hf =>
    cases ha
    have href : (s.ftable f).ref = 0 := by simpa using Fin.eq_true_of_find?_eq_some hf
    have htype := h.idle f href
    have hself : (s.setFile f { s.ftable f with ref := 1 }).ftable f = { s.ftable f with ref := 1 } := update_self ..
    refine ⟨⟨h.toRefs.setFile ?_ (fun g hg => own_ne hg) (fun h0 => absurd h0 Nat.one_ne_zero), h.pipes.setFile fun k w => ?_⟩,
      by rw [hself], by rw [hself]; exact htype, fun g hg => update_of_ne hg .., href, rfl, rfl⟩
    · rw [own_self, href]
      show 1 + K f = _
      omega
    · constructor
      · rintro ⟨ht, -⟩
        cases htype.symm.trans ht
      · rintro ⟨ht, -⟩
        cases htype.symm.trans ht
  · cases ha

theorem filealloc_none (ha : s.filealloc = (none, s')) : s' = s := by
  unfold Files.filealloc at ha
  split at ha
  · cases ha
  · cases ha
    rfl

theorem fdalloc_some (ha : fdalloc p f s = (some fd, s')) : s.ofile (p, fd) = none ∧ s' = { s with ofile := update s.ofile (p, fd) (some f) } := by
  unfold fdalloc at ha
  split at ha
  · next fd₀ hfd =>
    cases ha
    exact ⟨by simpa using Fin.eq_true_of_find?_eq_some hfd, rfl⟩
  · cases ha

theorem fdalloc_none (ha : fdalloc p f s = (none, s')) : s' = s := by
  unfold fdalloc at ha
  split at ha
  · cases ha
  · cases ha
    rfl

/-- A computation that does not fail. -/
abbrev Returns (P : Files → Prop) (x : Except Stuck Files) : Prop := Ends P (fun _ => False) x

theorem Sound.filedup (h : Sound K s) (href : 0 < (s.ftable f).ref) :
    Returns (fun s' => Sound (own f K) s' ∧ s'.ofile = s.ofile ∧ s'.alive = s.alive) (filedup f s) := by
  unfold Files.filedup
  rw [if_neg (by omega)]
  refine ⟨⟨h.toRefs.setFile ?_ (fun g hg => own_ne hg) (fun h0 => absurd h0 (Nat.succ_ne_zero _)), h.pipes.setFile fun k w => ?_⟩, rfl, rfl⟩
  · rw [own_self]
    show (s.ftable f).ref + 1 + K f = _
    omega
  · constructor
    · rintro ⟨ht, -, hk, hw⟩
      exact ⟨ht, href, hk, hw⟩
    · rintro ⟨ht, -, hk, hw⟩
      exact ⟨ht, Nat.succ_pos _, hk, hw⟩

/-- `pipeclose` touches neither files nor descriptors. -/
theorem closePipe_frame (k : Nat) (w : Bool) (s : Files) :
    (s.closePipe k w).ftable = s.ftable ∧ (s.closePipe k w).ofile = s.ofile ∧ (s.closePipe k w).alive = s.alive := by
  unfold Files.closePipe
  dsimp only
  split <;> exact ⟨rfl, rfl, rfl⟩

theorem Sound.fileclose (h : Sound (own f K) s) :
    Returns (fun s' => Sound K s' ∧ s'.ofile = s.ofile ∧ s'.alive = s.alive) (fileclose f s) := by
  have href := h.eq f
  rw [own_self] at href
  unfold Files.fileclose
  dsimp only
  rw [if_neg (by omega)]
  split
  · next hmore =>
    refine ⟨⟨h.toRefs.setFile ?_ (fun g hg => (own_ne hg).symm) (fun h0 => ?_), h.pipes.setFile fun k w => ?_⟩, rfl, rfl⟩
    · rw [own_self]
      show (s.ftable f).ref - 1 + _ = _
      omega
    · have h0 : (s.ftable f).ref - 1 = 0 := h0
      omega
    · constructor
      · rintro ⟨ht, -, hk, hw⟩
        exact ⟨ht, by omega, hk, hw⟩
      · rintro ⟨ht, -, hk, hw⟩
        exact ⟨ht, Nat.sub_pos_of_lt hmore, hk, hw⟩
  · next hlast =>
    have hrefs : Refs K (s.setFile f { s.ftable f with ref := 0, type := .none }) := by
      refine h.toRefs.setFile ?_ (fun g hg => (own_ne hg).symm) (fun _ => rfl)
      rw [own_self]
      show 0 + _ = _
      omega
    have hend : ∀ k w g, (s.setFile f { s.ftable f with ref := 0, type := .none }).IsEnd k w g ↔ s.IsEnd k w g ∧ g ≠ f := by
      intro k w g
      rw [isEnd_setFile]
      split
      · next hg => exact ⟨fun hx => FdType.noConfusion hx.1, fun hx => absurd hg hx.2⟩
      · next hg => exact ⟨fun hx => ⟨hx, hg⟩, fun hx => hx.1⟩
    split
    · next htype =>
      obtain ⟨hft, hof, hal⟩ := closePipe_frame (s.ftable f).pipe (s.ftable f).writable (s.setFile f { s.ftable f with ref := 0, type := .none })
      refine ⟨⟨⟨fun g => ?_, fun g => ?_⟩, ?_⟩, hof, hal⟩
      · rw [hft, hof]
        exact hrefs.eq g
      · rw [hft]
        exact hrefs.idle g
      · exact h.pipes.closePipe ⟨⟨htype, by omega, rfl, rfl⟩, ⟨rfl, rfl, rfl, rfl⟩, hend⟩
    · next htype =>
      refine ⟨⟨hrefs, h.pipes.congr (fun k w g => ?_) ⟨rfl, rfl, rfl, rfl⟩⟩, rfl, rfl⟩
      rw [hend]
      refine and_iff_left_of_imp ?_
      rintro ⟨ht, -⟩ rfl
      exact htype ht

/-! ## Calls -/

/-- Between calls: no call has a reference, and a process that is not there has no descriptor. -/
structure Settled (s : Files) : Prop extends Sound (fun _ => 0) s where
  dead : ∀ p fd, s.alive p = false → s.ofile (p, fd) = none

theorem Settled.of_kept (h : Settled s) (hp : s.alive p = true) (hs : Sound (fun _ => 0) s') (hk : Kept p s s') : Settled s' := by
  refine ⟨hs, fun r fd hr => ?_⟩
  rw [hk.alive] at hr
  rw [hk.other r fd (by rintro rfl; rw [hp] at hr; cases hr)]
  exact h.dead r fd hr

theorem Kept.of_eq (ho : s'.ofile = s.ofile) (ha : s'.alive = s.alive) : Kept p s s' := ⟨ha, fun _ _ _ => by rw [ho]⟩

/-- What a part of a call leaves. -/
abbrev Leaves (p : ProcIdx) (K : FileIdx → Nat) (s : Files) (x : Except Stuck Files) : Prop :=
  Returns (fun s' => Sound K s' ∧ Kept p s s') x

theorem Leaves.fileclose (h : Sound (own f K) s) : Leaves p K s (Files.fileclose f s) :=
  h.fileclose.mono fun _ hs => ⟨hs.1, .of_eq hs.2.1 hs.2.2⟩

/-- Both files of a pipe that could not be handed out are closed. -/
theorem Leaves.fileclose_both (h : Sound (own f (own g K)) s) : Leaves p K s (Files.fileclose f s >>= Files.fileclose g) :=
  (Leaves.fileclose h).bind fun _ hs => (Leaves.fileclose hs.1).mono fun _ hs' => ⟨hs'.1, hs.2.trans hs'.2⟩

theorem own_comm (f g : FileIdx) (K : FileIdx → Nat) : own f (own g K) = own g (own f K) := by
  funext x
  simp only [own]
  omega

theorem Sound.sysOpen (h : Sound K s) (found : Bool) (omode : Nat) : Leaves p K s (sysOpen p found omode s) := by
  unfold Files.sysOpen
  split
  · split
    · next ha =>
      rw [filealloc_none ha]
      exact ⟨h, .refl p s⟩
    · next f s₁ ha =>
      obtain ⟨h₁, href, htype, -, -, hof, hal⟩ := h.filealloc ha
      have hk₁ : Kept p s s₁ := .of_eq hof hal
      split
      · next s₂ hfd =>
        rw [fdalloc_none hfd]
        exact (Leaves.fileclose h₁).mono fun _ hs => ⟨hs.1, hk₁.trans hs.2⟩
      · next fd s₂ hfd =>
        obtain ⟨hfree, rfl⟩ := fdalloc_some hfd
        have h₂ := h₁.put hfree
        refine ⟨⟨h₂.toRefs.setFile rfl (fun _ _ => rfl) fun h0 => ?_, h₂.pipes.setFile fun k w => ?_⟩, hk₁.trans (.trans (.update s₁ fd _) ⟨rfl, fun _ _ _ => rfl⟩)⟩
        · exact absurd (href.symm.trans h0) Nat.one_ne_zero
        · constructor
          · rintro ⟨ht, -⟩
            cases ht
          · rintro ⟨ht, -⟩
            cases htype.symm.trans ht
  · exact ⟨h, .refl p s⟩

theorem filedup_ofile (o : ProcIdx × Fd → Option FileIdx) :
    filedup f { s with ofile := o } = (filedup f s).map fun s => { s with ofile := o } := by
  unfold filedup
  split <;> rfl

theorem fileclose_ofile (o : ProcIdx × Fd → Option FileIdx) :
    fileclose f { s with ofile := o } = (fileclose f s).map fun s => { s with ofile := o } := by
  have hpipe : ∀ (t : Files) (k : Nat) (w : Bool), closePipe k w { t with ofile := o } = { closePipe k w t with ofile := o } := by
    intro t k w
    unfold closePipe
    dsimp only
    split <;> rfl
  unfold fileclose
  dsimp only
  split
  · rfl
  · split
    · rfl
    · split
      · exact congrArg Except.ok (hpipe (s.setFile f _) _ _)
      · rfl

theorem filedup_frame (h : filedup f s = .ok s') : s'.ofile = s.ofile ∧ s'.alive = s.alive := by
  unfold filedup at h
  split at h
  · cases h
  · cases h
    exact ⟨rfl, rfl⟩

theorem fileclose_frame (h : fileclose f s = .ok s') : s'.ofile = s.ofile ∧ s'.alive = s.alive := by
  unfold fileclose at h
  dsimp only at h
  split at h
  · cases h
  · split at h
    · cases h
      exact ⟨rfl, rfl⟩
    · cases h
      split
      · exact (closePipe_frame _ _ _).2
      · exact ⟨rfl, rfl⟩

/-- A descriptor and the reference that is taken for it. -/
theorem Sound.dupTo (h : Sound K s) {x y : ProcIdx × Fd} (hx : s.ofile x = some f) (hy : s.ofile y = none) :
    ∃ s', Files.filedup f s = .ok s' ∧ Sound K { s' with ofile := update s.ofile y (some f) } := by
  have href : 0 < (s.ftable f).ref := by
    have := tally_pos hx
    rw [h.eq f]
    omega
  have hdup := h.filedup href
  cases hr : Files.filedup f s with
  | error e =>
    rw [hr] at hdup
    exact hdup.elim
  | ok s' =>
    rw [hr] at hdup
    obtain ⟨h', hof, -⟩ := hdup
    refine ⟨s', rfl, ?_⟩
    rw [← hof]
    exact h'.put (by rw [hof]; exact hy)

theorem Sound.sysDup (h : Sound K s) (fd : Fd) : Leaves p K s (sysDup p fd s) := by
  unfold Files.sysDup
  split
  · exact ⟨h, .refl p s⟩
  · next f hf =>
    split
    · next s₁ hfd =>
      rw [fdalloc_none hfd]
      exact ⟨h, .refl p s⟩
    · next fd' s₁ hfd =>
      obtain ⟨hfree, rfl⟩ := fdalloc_some hfd
      obtain ⟨s', hdup, h'⟩ := h.dupTo hf hfree
      -- the descriptor is there before the reference is
      rw [filedup_ofile, hdup]
      exact ⟨h', (filedup_frame hdup).2, (Kept.update s fd' (some f)).other⟩

theorem Sound.sysClose (h : Sound K s) (fd : Fd) : Leaves p K s (sysClose p fd s) := by
  unfold Files.sysClose
  split
  · exact ⟨h, .refl p s⟩
  · next f hf => exact (Leaves.fileclose (h.clear hf)).mono fun _ hs => ⟨hs.1, (Kept.update s fd none).trans hs.2⟩

theorem Refs.makePipe {fl : List Nat} (h : Refs K s) (hf : (s.ftable f).ref = 1) (hg : (s.ftable g).ref = 1) (hne : f ≠ g) :
    Refs K (s.makePipe f g k fl) := by
  have hpages : Refs K { s with free := fl, pipes := update s.pipes k (Ipc.pipealloc (s.pipes k).data), made := update s.made k (s.made k + 1) } :=
    ⟨h.eq, h.idle⟩
  unfold Files.makePipe
  refine Refs.setFile (Refs.setFile hpages rfl (fun _ _ => rfl) fun h0 => ?_) rfl (fun _ _ => rfl) fun h0 => ?_
  · exact absurd (hf.symm.trans h0) Nat.one_ne_zero
  · have hg' : (update s.ftable f _ g).ref = 0 := h0
    rw [update_of_ne hne.symm, hg] at hg'
    cases hg'

/-- What the call has after `pipealloc`: nothing more, or two files. -/
def Allotted (K : FileIdx → Nat) : Option (FileIdx × FileIdx) → Files → Prop
  | none, s => Sound K s
  | some (f, g), s => Sound (own f (own g K)) s

theorem Sound.pipealloc (h : Sound K s) :
    Ends (fun r : Option (FileIdx × FileIdx) × Files => Allotted K r.1 r.2 ∧ Kept p s r.2) (fun _ => False) (pipealloc s) := by
  unfold Files.pipealloc
  split
  · next s₁ ha =>
    rw [filealloc_none ha]
    exact ⟨h, .refl p s⟩
  · next f s₁ ha =>
    obtain ⟨h₁, hf₁, ht₁, -, -, hof₁, hal₁⟩ := h.filealloc ha
    have hk₁ : Kept p s s₁ := .of_eq hof₁ hal₁
    split
    · next s₂ hb =>
      rw [filealloc_none hb]
      exact (Leaves.fileclose h₁).bind fun _ hs => ⟨hs.1, hk₁.trans hs.2⟩
    · next g s₂ hb =>
      obtain ⟨h₂, hg₂, ht₂, hother, hg₀, hof₂, hal₂⟩ := h₁.filealloc hb
      have hk₂ : Kept p s s₂ := hk₁.trans (.of_eq hof₂ hal₂)
      have hne : f ≠ g := by
        rintro rfl
        rw [hf₁] at hg₀
        cases hg₀
      rw [own_comm] at h₂
      split
      · next hfree =>
        exact (Leaves.fileclose h₂).bind fun _ hs => (Leaves.fileclose hs.1).bind fun _ hs' => ⟨hs'.1, hk₂.trans (hs.2.trans hs'.2)⟩
      · next k fl hfree =>
        have hf₂ : (s₂.ftable f).ref = 1 ∧ (s₂.ftable f).type = .none := by
          rw [hother f hne]
          exact ⟨hf₁, ht₁⟩
        exact ⟨⟨h₂.toRefs.makePipe hf₂.1 hg₂ hne, h₂.pipes.makePipe hfree hne hf₂ ⟨hg₂, ht₂⟩⟩, hk₂.trans ⟨rfl, fun _ _ _ => rfl⟩⟩

theorem Sound.sysPipe (h : Sound K s) : Leaves p K s (sysPipe p s) := by
  unfold Files.sysPipe
  refine (h.pipealloc (p := p)).bind fun r hr => ?_
  obtain ⟨o, s₁⟩ := r
  obtain ⟨hs, hk⟩ := hr
  cases o with
  | none => exact ⟨hs, hk⟩
  | some fg =>
    obtain ⟨rf, wf⟩ := fg
    have hs : Sound (own rf (own wf K)) s₁ := hs
    dsimp only
    split
    · next s₂ hfd =>
      rw [fdalloc_none hfd]
      exact (Leaves.fileclose_both hs).mono fun _ hs' => ⟨hs'.1, hk.trans hs'.2⟩
    · next fd₀ s₂ hfd =>
      obtain ⟨hfree, rfl⟩ := fdalloc_some hfd
      have hk₂ := hk.trans (.update s₁ fd₀ (some rf))
      have hput := hs.put hfree
      split
      · next s₃ hfd' =>
        rw [fdalloc_none hfd']
        -- the descriptor of the read end is taken back
        have hclear := hput.clear (x := (p, fd₀)) (f := rf) (update_self ..)
        exact (Leaves.fileclose_both hclear).mono fun _ hs' => ⟨hs'.1, (hk₂.trans (.update _ fd₀ none)).trans hs'.2⟩
      · next fd₁ s₃ hfd' =>
        obtain ⟨hfree', rfl⟩ := fdalloc_some hfd'
        exact ⟨hput.put hfree', hk₂.trans (.update _ fd₁ (some wf))⟩

theorem Sound.dupLoop : ∀ {fds : List Fd} {s : Files}, fds.Nodup → Sound K s → p ≠ q → (∀ fd ∈ fds, s.ofile (q, fd) = none) →
    Leaves q K s (dupLoop p q fds s)
  | [], s, _, h, _, _ => ⟨h, .refl q s⟩
  | fd :: fds, s, hnd, h, hpq, hq => by
    obtain ⟨hfd, hnd⟩ := List.nodup_cons.1 hnd
    unfold Files.dupLoop
    split
    · exact Sound.dupLoop hnd h hpq fun fd' hfd' => hq fd' (List.mem_cons_of_mem _ hfd')
    · next f hf =>
      obtain ⟨s₁, hdup, h₁⟩ := h.dupTo hf (hq fd List.mem_cons_self)
      obtain ⟨hof, hal⟩ := filedup_frame hdup
      rw [hdup]
      show Leaves q K s (Files.dupLoop p q fds { s₁ with ofile := update s₁.ofile (q, fd) (some f) })
      rw [hof]
      have hk : Kept q s { s₁ with ofile := update s.ofile (q, fd) (some f) } := ⟨hal, (Kept.update s fd (some f)).other⟩
      refine (Sound.dupLoop hnd h₁ hpq fun fd' hfd' => ?_).mono fun _ hs => ⟨hs.1, hk.trans hs.2⟩
      show update s.ofile (q, fd) (some f) (q, fd') = none
      rw [update_of_ne]
      · exact hq fd' (List.mem_cons_of_mem _ hfd')
      · rintro ⟨⟩
        exact hfd hfd'

theorem Settled.fork (h : Settled s) (hp : s.alive p = true) (mem : Bool) : Returns Settled (Files.fork p q mem s) := by
  unfold Files.fork
  split
  · exact h
  · next hq =>
    have hdead : s.alive q = false := by
      simp only [Bool.or_eq_true, not_or, Bool.not_eq_true] at hq
      exact hq.1
    have hpq : p ≠ q := by
      rintro rfl
      rw [hp] at hdead
      cases hdead
    refine (h.toSound.dupLoop (List.nodup_finRange _) hpq fun fd _ => h.dead q fd hdead).bind fun s' hs => ?_
    refine ⟨⟨⟨hs.1.eq, hs.1.idle⟩, hs.1.pipes.congr (fun _ _ _ => Iff.rfl) ⟨rfl, rfl, rfl, rfl⟩⟩, fun r fd hr => ?_⟩
    have hr : update s'.alive q true r = false := hr
    by_cases hrq : r = q
    · subst hrq
      rw [update_self] at hr
      cases hr
    · rw [update_of_ne hrq, hs.2.alive] at hr
      show s'.ofile (r, fd) = none
      rw [hs.2.other r fd hrq]
      exact h.dead r fd hr

theorem Sound.closeLoop : ∀ {fds : List Fd} {s : Files}, Sound K s → Returns (fun s' => Sound K s' ∧ Kept p s s' ∧
    ∀ fd, fd ∈ fds ∨ s.ofile (p, fd) = none → s'.ofile (p, fd) = none) (closeLoop p fds s)
  | [], s, h => ⟨h, .refl p s, fun fd hfd => hfd.resolve_left List.not_mem_nil⟩
  | fd :: fds, s, h => by
    unfold Files.closeLoop
    split
    · next hnone =>
      refine (Sound.closeLoop h).mono fun _ hs => ⟨hs.1, hs.2.1, fun fd' hfd' => hs.2.2 fd' ?_⟩
      rcases hfd' with hfd' | hfd'
      · rcases List.mem_cons.1 hfd' with rfl | hmem
        · exact .inr hnone
        · exact .inl hmem
      · exact .inr hfd'
    · next f hf =>
      -- as if the descriptor were given up first
      have hclose := (h.clear hf).fileclose
      rw [fileclose_ofile] at hclose
      cases hr : Files.fileclose f s with
      | error e =>
        rw [hr] at hclose
        exact hclose
      | ok s₁ =>
        rw [hr] at hclose
        obtain ⟨hof, hal⟩ := fileclose_frame hr
        show Returns _ (Files.closeLoop p fds { s₁ with ofile := update s₁.ofile (p, fd) none })
        rw [hof]
        have hk : Kept p s { s₁ with ofile := update s.ofile (p, fd) none } := ⟨hal, (Kept.update s fd none).other⟩
        refine (Sound.closeLoop hclose.1).mono fun _ hs => ⟨hs.1, hk.trans hs.2.1, fun fd' hfd' => hs.2.2 fd' ?_⟩
        show fd' ∈ fds ∨ update s.ofile (p, fd) none (p, fd') = none
        by_cases hfd : fd' = fd
        · subst hfd
          exact .inr (update_self ..)
        · rw [update_of_ne (by rintro ⟨⟩; exact hfd rfl)]
          exact hfd'.imp (fun hm => (List.mem_cons.1 hm).resolve_left hfd) id

/-- The first process must not exit. -/
def InitExits (e : Stuck) : Prop := e = .panic "init exiting"

theorem Settled.exit (h : Settled s) : Ends Settled InitExits (Files.exit p s) := by
  unfold Files.exit
  split
  · rfl
  · have hloop : Returns _ (Files.closeLoop p (List.finRange nOFile) s) := h.toSound.closeLoop
    cases hr : Files.closeLoop p (List.finRange nOFile) s with
    | error e =>
      rw [hr] at hloop
      exact hloop.elim
    | ok s' =>
      rw [hr] at hloop
      obtain ⟨hs, hk, hnone⟩ := hloop
      refine ⟨⟨⟨hs.eq, hs.idle⟩, hs.pipes.congr (fun _ _ _ => Iff.rfl) ⟨rfl, rfl, rfl, rfl⟩⟩, fun r fd hr => ?_⟩
      have hr : update s'.alive p false r = false := hr
      show s'.ofile (r, fd) = none
      by_cases hrp : r = p
      · subst hrp
        exact hnone fd (.inl (List.mem_finRange fd))
      · rw [update_of_ne hrp, hk.alive] at hr
        rw [hk.other r fd hrp]
        exact h.dead r fd hr

theorem Leaves.settled {x : Except Stuck Files} (h : Settled s) (hp : s.alive p = true) (hx : Leaves p (fun _ => 0) s x) :
    Ends Settled InitExits x := by
  cases x with
  | error e => exact hx.elim
  | ok s' => exact h.of_kept hp hx.1 hx.2

end Files

open Files

variable {s s' : Files} {p : ProcIdx}

theorem Call.run_settled (h : Settled s) (c : Call) : Ends Settled InitExits (c.run p s) := by
  unfold Call.run
  split
  · next hp =>
    cases c with
    | «open» found omode => exact (h.toSound.sysOpen found omode).settled h hp
    | dup fd => exact (h.toSound.sysDup fd).settled h hp
    | pipe => exact h.toSound.sysPipe.settled h hp
    | close fd => exact (h.toSound.sysClose fd).settled h hp
    | fork q mem =>
      have hfork := h.fork (q := q) hp mem
      dsimp only
      cases hr : Files.fork p q mem s with
      | error e =>
        rw [hr] at hfork
        exact hfork.elim
      | ok s' =>
        rw [hr] at hfork
        exact hfork
    | exit => exact h.exit
    | pages free =>
      dsimp only
      split
      · next hfree =>
        have hpipes := h.pipes
        exact ⟨⟨⟨h.eq, h.idle⟩, hpipes.once, hpipes.flag, fun k hk hm => hfree.2 k hm hk, hfree.1, hpipes.count⟩, h.dead⟩
      · exact h
  · exact h

theorem runCalls_settled : ∀ {cs : List (ProcIdx × Call)} {s : Files}, Settled s → Ends Settled InitExits (runCalls cs s)
  | [], _, h => h
  | (_, c) :: _, _, h => (Call.run_settled h c).bind fun _ hs => runCalls_settled hs

theorem boot_settled (pages : Nat → Pipe) {free : List Nat} (hfree : free.Nodup) : Settled (Files.boot pages free) := by
  have hend : ∀ k w f, ¬(Files.boot pages free).IsEnd k w f := by
    rintro k w f ⟨ht, -⟩
    cases ht
  have huse : ∀ k, ¬(Files.boot pages free).InUse k := by
    rintro k ⟨w, f, hf⟩
    exact hend k w f hf
  constructor
  · constructor
    · constructor
      · intro f
        show 0 = tally (fun _ => none) f + 0
        rw [tally_none fun _ => rfl]
      · intro f _
        rfl
    · constructor
      · intro k w f g hf
        exact absurd hf (hend k w f)
      · intro k hk
        exact absurd hk (huse k)
      · intro k hk
        exact absurd hk (huse k)
      · exact hfree
      · intro k
        rw [if_neg (huse k)]
        rfl
  · intro p fd _
    rfl

/-- In every run of calls, whatever fails in them, each file counts its descriptors, the only panic is that of
an `exit` of the first process, and of every page that has become a pipe the flags tell which ends are
open, until both are closed and the page is freed once. -/
theorem files_exact (pages : Nat → Pipe) (free : List Nat) (hfree : free.Nodup) (cs : List (ProcIdx × Call)) :
    Ends (fun s => (∀ f, (s.ftable f).ref = tally s.ofile f) ∧
      ∀ k, s.made k = s.freed k + (if s.InUse k then 1 else 0) ∧ (s.InUse k → k ∉ s.free ∧
        ((s.pipes k).readopen = true ↔ ∃! f, s.IsEnd k false f) ∧ ((s.pipes k).writeopen = true ↔ ∃! f, s.IsEnd k true f)))
      InitExits (runCalls cs (Files.boot pages free)) := by
  refine (runCalls_settled (boot_settled pages hfree)).mono fun s hs =>
    ⟨fun f => (hs.eq f).trans (Nat.add_zero _), fun k => ⟨hs.pipes.count k, fun hk => ⟨hs.pipes.page k hk, ?_⟩⟩⟩
  have hone : ∀ w, (∃ f, s.IsEnd k w f) ↔ ∃! f, s.IsEnd k w f := by
    intro w
    constructor
    · rintro ⟨f, hf⟩
      exact ⟨f, hf, fun g hg => hs.pipes.once k w g f hg hf⟩
    · rintro ⟨f, hf, -⟩
      exact ⟨f, hf⟩
  rw [← hone, ← hone]
  exact ⟨hs.pipes.flag k hk false, hs.pipes.flag k hk true⟩

/-- A child closes the write end that it shares with its parent, and both exit or close the rest: the page is freed. -/
theorem files_exact_pipe : ∃ s, runCalls [(0, .pipe), (0, .fork 1 true), (1, .close 1), (0, .close 0), (1, .exit), (0, .close 1)]
      (Files.boot (fun _ => pipealloc fun _ => 0) [7, 8]) = .ok s ∧ s.made 7 = 1 ∧ s.freed 7 = 1 ∧ ¬s.InUse 7 := by
  have hrun := files_exact (fun _ => pipealloc fun _ => 0) [7, 8] (by decide)
    [(0, .pipe), (0, .fork 1 true), (1, .close 1), (0, .close 0), (1, .exit), (0, .close 1)]
  have hok : ((runCalls [(0, .pipe), (0, .fork 1 true), (1, .close 1), (0, .close 0), (1, .exit), (0, .close 1)]
      (Files.boot (fun _ => pipealloc fun _ => 0) [7, 8])).toOption.any fun s => s.made 7 = 1 ∧ s.freed 7 = 1) = true := by decide +kernel
  generalize runCalls _ _ = r at hrun hok
  cases r with
  | error e => cases hok
  | ok s =>
    have hcount : s.made 7 = 1 ∧ s.freed 7 = 1 := of_decide_eq_true hok
    refine ⟨s, rfl, hcount.1, hcount.2, fun huse => ?_⟩
    have := (hrun.2 7).1
    rw [if_pos huse, hcount.1, hcount.2] at this
    cases this

end DemandPaging.Ipc
