/-
The bytes a process reads before and after it grows. A page is present, or on the swap list of the process;
`growproc` starts every new page as a page of zeros on the list. The others keep their bytes when the size
is at the end of a page, where no slot of the new pages shares blocks with one of theirs.
-/
import DemandPaging.Paging.Eviction
import DemandPaging.Paging.Refused
import DemandPaging.Swap.Extents
import DemandPaging.Swap.Lifecycle

namespace DemandPaging

variable {p : ProcIdx} {s s' t : Kernel} {pd pd' : PageDir} {L : List SlotIdx} {v a : Nat} {pg : Page}

/-! ## Reading a page -/

/-- The slot that the search for a page finds: the first one on the list with its address. -/
def slotOf (sw : Swap) (L : List SlotIdx) (v : Nat) : Option SlotIdx := L.find? fun i => (sw.frames i).vaddr = v

/-- The page holds the bytes: it is mapped for the user, or on the swap list. -/
inductive PageBytes (p : ProcIdx) (L : List SlotIdx) (v : Nat) (pg : Page) (s : Kernel) : Prop
  | present (f : Nat) (hf : userFrame p v false s = some f) (hm : s.phys.mem f = pg)
  | swapped (y : SlotIdx) (hf : userFrame p v false s = none) (hy : slotOf s.swap L v = some y)
      (hd : diskPage s.disk ((s.swap.frames y).swap.start + y * 8) = pg)

/-- There is room to bring a page in: an entry of the ring and a page. -/
structure CanLoad (p : ProcIdx) (L : List SlotIdx) (s : Kernel) : Prop where
  list : SwapList s.swap (s.ptable p).swapList L
  unlocked : s.swap.lk = false
  ring : ∃ E, Queue s.lru E ∧ E.length < maxFrameLru
  page : s.phys.freelist ≠ []

theorem userFrame_page {wr : Bool} {b : Nat} (h : a / pgSize = b / pgSize) : userFrame p a wr s = userFrame p b wr s := by
  unfold userFrame
  cases (s.ptable p).pgdir with
  | none => rfl
  | some pd =>
    simp only [Option.bind_eq_bind, Option.bind_some]
    rw [pte?_page h]

theorem takeSlot_slotOf {list : Option SlotIdx} {sw : Swap} {y : SlotIdx} (hL : SwapList sw list L) (hlk : sw.lk = false)
    (hy : slotOf sw L v = some y) : ∃ list' sw', takeSlot v list sw = .ok (some y, list', sw') := by
  obtain ⟨hyv, A, B, rfl, hA⟩ := List.find?_eq_some_iff_append.1 hy
  have hyv : (sw.frames y).vaddr = v := by simpa using hyv
  have hA : ∀ i ∈ A, (sw.frames i).vaddr ≠ v := fun i hi => by simpa using hA i hi
  by_cases hc : (sw.frames y).count = 1
  · exact ⟨_, _, takeSlot_last hL hlk hA hyv hc⟩
  · exact ⟨_, _, takeSlot_shared hL hlk hA hyv hc⟩

/-- A fault on a page that is on the list brings it in. -/
theorem pgfltHandler_swapped {y : SlotIdx} (h : CanLoad p L s) (hpd : (s.ptable p).pgdir = some pd) (ha : a < kernBase)
    (htab : pd.pte? a ≠ none) (hy : slotOf s.swap L (pgRoundDown a) = some y) :
    ∃ t f, pgfltHandler p a s = .ok t ∧ userFrame p a false t = some f ∧
      t.phys.mem f = diskPage s.disk ((s.swap.frames y).swap.start + y * 8) := by
  have hpage := pgRoundDown_page a
  have hal := pgRoundDown_mod a
  have hle := pgRoundDown_le a
  have hw : pgRoundDown a < wordSize := by simp only [kernBase, wordSize] at *; omega
  obtain ⟨E, hE, hlen⟩ := h.ring
  obtain ⟨l, hl, -⟩ := getLru_insert (s.ptable p).pid (pgRoundDown a) hE hlen
  obtain ⟨list', sw', htake⟩ := takeSlot_slotOf h.list h.unlocked hy
  obtain ⟨f, fl, hfl⟩ := List.exists_cons_of_ne_nil h.page
  have htab' : pdx (pgRoundDown a) ∈ pd.present := by
    rw [mem_present, Ne, ← pte?_eq_none, pte?_page hpage]
    exact htab
  obtain ⟨t, hin, hdir, hmem⟩ : ∃ t, swapInWith (s.swap.frames y).swap p (pgRoundDown a) { s with lru := l } = .ok (0, t) ∧
      (t.ptable p).pgdir = some (pd.setPte (pgRoundDown a) ⟨⟨true, true, true⟩, f * pgSize / pgSize⟩) ∧
      t.phys.mem f = diskPage s.disk ((s.swap.frames y).swap.start + y * 8) :=
    ⟨_, swapInWith_eq htake hpd hfl (mappages_table (f * pgSize) ⟨false, true, true⟩ true pd _ hal hw htab'),
      by simp, Function.update_self ..⟩
  refine ⟨t, f, ?_, ?_, hmem⟩
  · have hfind : (L.find? fun i => (s.swap.frames i).vaddr = pgRoundDown a) = some y := hy
    unfold pgfltHandler
    dsimp only
    rw [if_neg (by omega), swapCheck_eq h.list h.unlocked, hfind]
    simp only [ok_bind, Option.map_some, swapInFunc_eq]
    rw [hl, ok_bind, hin]
    rfl
  · unfold userFrame
    rw [hdir]
    simp only [Option.bind_eq_bind, Option.bind_some]
    rw [← pte?_page hpage, pte?_setPte_same (mem_present.1 htab'), Option.bind_some, Nat.mul_div_cancel _ (by decide)]
    rfl

/-- A read of a page finds its bytes. -/
theorem userLoad_bytes (h : CanLoad p L s) (hpd : (s.ptable p).pgdir = some pd) (ha : a < kernBase) (htab : pd.pte? a ≠ none)
    (hb : PageBytes p L (pgRoundDown a) pg s) : ∃ t, userLoad p a s = .ok (pg (pgOffset a), t) := by
  unfold userLoad touch
  cases hb with
  | present f hf hm =>
    rw [userFrame_page (pgRoundDown_page a)] at hf
    rw [hf]
    refine ⟨s, ?_⟩
    simp only [ok_bind, hm]
    rfl
  | swapped y hf hy hd =>
    rw [userFrame_page (pgRoundDown_page a)] at hf
    obtain ⟨t, f, hflt, huf, hmem⟩ := pgfltHandler_swapped h hpd ha htab hy
    refine ⟨t, ?_⟩
    rw [hf]
    dsimp only
    rw [hflt, ok_bind, huf]
    simp only [ok_bind, pure_ok, hmem, hd]

/-! ## The new pages -/

theorem freeSlot?_least {sw : Swap} {f g : SlotIdx} (h : freeSlot? sw = some f) (hg : g < f) : sw.bitmap g ≠ -1 := by
  unfold freeSlot? at h
  simpa using (Fin.find?_eq_some_iff.1 h).2 g hg

theorem pte?_setPte_self {pte : Pte} (h : pd.pte? a = some pte) (b : Nat) : (pd.setPte a pte).pte? b = pd.pte? b := by
  by_cases hb : pdx b = pdx a ∧ ptx b = ptx a
  · have htab : pd.tables (pdx a) ≠ none := by
      rw [Ne, ← pte?_eq_none, h]
      simp
    have hsame : ∀ d : PageDir, d.pte? b = d.pte? a := fun d => by rw [PageDir.pte?, PageDir.pte?, hb.1, hb.2]
    rw [hsame, hsame, pte?_setPte_same htab, h]
  · exact pte?_setPte_other hb

/-- An entry of one of the pages of a process in a range. -/
def EntryIn (pid : Int) (lo hi : Nat) (e : Int × Nat) : Prop := e.1 = pid ∧ lo ≤ e.2 ∧ e.2 < hi

instance (pid : Int) (lo hi : Nat) : DecidablePred (EntryIn pid lo hi) := fun _ => inferInstanceAs (Decidable (_ ∧ _ ∧ _))

/-- The entries `E'` are what is left of `E` after some of the range have gone. -/
structure LessIn (pid : Int) (lo hi : Nat) (E E' : List (Int × Nat)) : Prop where
  sub : E'.Sublist E
  rest : E'.filter (¬EntryIn pid lo hi ·) = E.filter (¬EntryIn pid lo hi ·)

namespace LessIn

variable {pid : Int} {lo hi : Nat} {E E' E'' : List (Int × Nat)}

theorem refl : LessIn pid lo hi E E := ⟨List.Sublist.refl E, rfl⟩

theorem trans (h : LessIn pid lo hi E E') (h' : LessIn pid lo hi E' E'') : LessIn pid lo hi E E'' :=
  ⟨h'.sub.trans h.sub, h'.rest.trans h.rest⟩

theorem mem {e : Int × Nat} (h : LessIn pid lo hi E E') (he : e ∈ E) (hout : ¬EntryIn pid lo hi e) : e ∈ E' := by
  have hm : e ∈ E.filter (¬EntryIn pid lo hi ·) := List.mem_filter.2 ⟨he, by simpa using hout⟩
  rw [← h.rest] at hm
  exact (List.mem_filter.1 hm).1

theorem eq (h : LessIn pid lo hi E E') (hout : ∀ e ∈ E, ¬EntryIn pid lo hi e) : E' = E := by
  have hall : ∀ C : List (Int × Nat), C ⊆ E → C.filter (¬EntryIn pid lo hi ·) = C := fun C hC =>
    List.filter_eq_self.2 fun e he => by simpa using hout e (hC he)
  rw [← hall E' h.sub.subset, h.rest, hall E (List.Subset.refl E)]

end LessIn

/-- The ring loses no more than an entry of the range, unless it has nothing else. -/
theorem Queue.freeFrame_in {l l' : Lru} {E : List (Int × Nat)} {pid : Int} {lo hi : Nat} (h : Queue l E) (hv : EntryIn pid lo hi (pid, v))
    (hE : E = [] ∨ ∃ e ∈ E, ¬EntryIn pid lo hi e) (hfree : lruFreeFrame pid v l = .ok l') :
    ∃ E', Queue l' E' ∧ LessIn pid lo hi E E' := by
  by_cases hm : (pid, v) ∈ E
  · obtain ⟨A, B, rfl, hA⟩ := List.eq_append_cons_of_mem hm
    obtain ⟨e, he, hout⟩ : ∃ e ∈ A ++ (pid, v) :: B, ¬EntryIn pid lo hi e := by
      rcases hE with hE | hE
      · simp at hE
      · exact hE
    have he' : e ∈ A ++ B := by
      rcases List.mem_append.1 he with he | he
      · exact List.mem_append_left _ he
      · rcases List.mem_cons.1 he with rfl | he
        · exact absurd hv hout
        · exact List.mem_append_right _ he
    obtain ⟨l₁, hl₁, hq⟩ := h.freeFrame_found hA (List.ne_nil_of_mem he')
    obtain rfl := Except.ok.inj (hl₁.symm.trans hfree)
    refine ⟨A ++ B, hq, (List.sublist_cons_self _ _).append_left A, ?_⟩
    rw [List.filter_append, List.filter_append, List.filter_cons_of_neg (by simpa using hv)]
  · rw [h.freeFrame_missing hm] at hfree
    obtain rfl := Except.ok.inj hfree
    exact ⟨E, h, .refl⟩

/-- Appending a slot changes another one in its `next` only. -/
theorem linked_frame (sw : Swap) {f g : SlotIdx} (L : List SlotIdx) (kind : SwapKind) (v : Nat) (hg : g ≠ f) :
    ∃ nx, (sw.linked L kind v f).frames g = { sw.frames g with next := nx } := by
  simp only [Swap.linked, hg, if_false]
  split
  · exact ⟨_, rfl⟩
  · exact ⟨_, rfl⟩

/-- The loop of `growproc` has put zeros in the slots `F` for the pages from `sz` on, with entries `pd` in place. -/
structure Growing (p : ProcIdx) (sz top : Nat) (L : List SlotIdx) (E : List (Int × Nat)) (pd : PageDir) (s : Kernel) (F : List SlotIdx)
    (t : Kernel) : Prop where
  size : (t.ptable p).sz = sz
  pid : (t.ptable p).pid = (s.ptable p).pid
  dir : ∃ pd', (t.ptable p).pgdir = some pd' ∧ ∀ b, pd'.pte? b = pd.pte? b
  others : ∀ q, q ≠ p → t.ptable q = s.ptable q
  phys : t.phys = s.phys
  list : SwapList t.swap (t.ptable p).swapList (L ++ F)
  unlocked : t.swap.lk = false
  bitmap : ∀ g, t.swap.bitmap g = if g ∈ F then 1 else s.swap.bitmap g
  free : ∀ f ∈ F, s.swap.bitmap f = -1
  lowest : ∀ f ∈ F, ∀ g < f, s.swap.bitmap g = -1 → g ∈ F
  old : ∀ g ∈ L, ∃ nx, t.swap.frames g = { s.swap.frames g with next := nx }
  new : ∀ j f, F[j]? = some f → (∃ nx, t.swap.frames f = ⟨sz + j * pgSize, nx, .heap, 1⟩) ∧
    diskPage t.disk (SwapKind.heap.start + f * 8) = zeroPage
  disk : ∀ c, (∀ f ∈ F, Disjoint (Finset.Ico (SwapKind.heap.start + f.val * 8) (SwapKind.heap.start + f.val * 8 + 8)) (Finset.Ico c (c + 8))) →
    diskPage t.disk c = diskPage s.disk c
  ring : ∃ E', Queue t.lru E' ∧ LessIn (s.ptable p).pid sz top E E'

namespace Growing

variable {sz top : Nat} {E : List (Int × Nat)} {F : List SlotIdx}

theorem refl (hsz : (s.ptable p).sz = sz) (hpd : (s.ptable p).pgdir = some pd)
    (hL : SwapList s.swap (s.ptable p).swapList L) (hlk : s.swap.lk = false) (hE : Queue s.lru E) :
    Growing p sz top L E pd s [] s where
  size := hsz
  pid := rfl
  dir := ⟨pd, hpd, fun _ => rfl⟩
  others _ _ := rfl
  phys := rfl
  list := by
    rw [List.append_nil]
    exact hL
  unlocked := hlk
  bitmap g := by simp
  free f hf := by cases hf
  lowest f hf := by cases hf
  old g _ := ⟨_, rfl⟩
  new j f hf := by simp at hf
  disk c _ := rfl
  ring := ⟨E, hE, .refl⟩

/-- The next page. -/
theorem page {r : Int} (h : Growing p sz top L E pd s F t) (hused : ∀ g ∈ L, s.swap.bitmap g ≠ -1)
    (hring : E = [] ∨ ∃ e ∈ E, ¬EntryIn (s.ptable p).pid sz top e)
    (hpte : pd.pte? (sz + F.length * pgSize) = some Pte.blank) (htop : sz + F.length * pgSize < top) (hk : top ≤ kernBase)
    (hout : swapOutFunc .heap p (sz + F.length * pgSize) (t.setProc p { t.ptable p with heapBuffer := zeroPage }) = .ok (r, s'))
    (hr : 0 ≤ r) : ∃ f, Growing p sz top L E pd s (F ++ [f]) s' := by
  rw [swapOutFunc_eq] at hout
  obtain ⟨f, list, sw, pd₁, pte, l, hlink, hpd₁, hpte₁, hl, rfl⟩ := swapOutWith_user hout hr (by omega)
  simp only [Kernel.setProc_same, Kernel.setProc_swap, Kernel.setProc_lru, Kernel.setProc_disk] at *
  obtain ⟨pd', hpd', hsame⟩ := h.dir
  obtain rfl := Option.some.inj (hpd'.symm.trans hpd₁)
  rw [hsame, hpte] at hpte₁
  obtain rfl := Option.some.inj hpte₁
  have hfree : freeSlot? t.swap = some f := ((linkSlot_ok hlink).1).symm
  rw [linkSlot_eq h.list h.unlocked hfree] at hlink
  cases hlink
  have hbit := h.bitmap
  have hfF : f ∉ F ∧ s.swap.bitmap f = -1 := by
    have h1 := freeSlot?_some hfree
    rw [hbit] at h1
    split at h1
    · cases h1
    · next hn => exact ⟨hn, h1⟩
  have hfL : f ∉ L := fun hc => hused f hc hfF.2
  have hfLF : f ∉ L ++ F := by simp [hfL, hfF.1]
  obtain ⟨E₁, hE₁, hless₁⟩ := h.ring
  have hring₁ : E₁ = [] ∨ ∃ e ∈ E₁, ¬EntryIn (s.ptable p).pid sz top e := by
    rcases hring with rfl | ⟨e, he, hout⟩
    · exact .inl (List.sublist_nil.1 hless₁.sub)
    · exact .inr ⟨e, hless₁.mem he hout, hout⟩
  rw [h.pid] at hl
  obtain ⟨E₂, hE₂, hless₂⟩ := hE₁.freeFrame_in ⟨rfl, by omega, htop⟩ hring₁ hl
  refine ⟨f, ⟨?_, ?_, ⟨pd'.setPte (sz + F.length * pgSize) Pte.blank, ?_, fun b => ?_⟩, fun q hq => ?_, h.phys, ?_, rfl, fun g => ?_, ?_, ?_, ?_,
    ?_, ?_, ⟨E₂, hE₂, hless₁.trans hless₂⟩⟩⟩
  · simp only [Function.update_self, h.size]
  · simp only [Function.update_self, h.pid]
  · simp only [Function.update_self]
    rfl
  · rw [pte?_setPte_self ((hsame _).trans hpte), hsame]
  · rw [← h.others q hq]
    simp [Kernel.setProc, hq]
  · simp only [Function.update_self]
    rw [← List.append_assoc]
    exact h.list.linked hfLF
  · show (Function.update t.swap.bitmap f 1) g = _
    rw [Function.update_apply]
    by_cases hg : g = f
    · simp [hg]
    · simp [hg, hbit]
  · intro g hg
    rcases List.mem_append.1 hg with hg | hg
    · exact h.free g hg
    · rw [List.mem_singleton.1 hg]
      exact hfF.2
  · intro g hg b hb hfb
    refine List.mem_append_left _ ?_
    rcases List.mem_append.1 hg with hg | hg
    · exact h.lowest g hg b hb hfb
    · rw [List.mem_singleton.1 hg] at hb
      have h1 := freeSlot?_least hfree hb
      rw [hbit] at h1
      by_contra hn
      rw [if_neg hn] at h1
      exact h1 hfb
  · intro g hg
    obtain ⟨nx, hnx⟩ := h.old g hg
    have hgf : g ≠ f := fun hc => hfL (hc ▸ hg)
    obtain ⟨nx', hnx'⟩ := linked_frame t.swap (L ++ F) .heap (sz + F.length * pgSize) hgf
    exact ⟨nx', by rw [hnx', hnx]⟩
  · intro j g hg
    rw [List.getElem?_append] at hg
    split at hg
    · obtain ⟨⟨nx, hnx⟩, h3⟩ := h.new j g hg
      have hgf : g ≠ f := fun hc => hfF.1 (hc ▸ List.mem_of_getElem? hg)
      obtain ⟨nx', hnx'⟩ := linked_frame t.swap (L ++ F) .heap (sz + F.length * pgSize) hgf
      refine ⟨⟨nx', by rw [hnx', hnx]⟩, ?_⟩
      have hapart := (disjoint_iff_not_collide (k := .heap) (l := .heap) fun hc => hgf (Fin.ext hc).symm).2 fun hc => hc
      rw [← h3]
      exact diskPage_writeswap hapart _ _
    · next hj =>
      rw [List.getElem?_singleton] at hg
      split at hg
      · cases hg
        have hj' : j = F.length := by omega
        subst hj'
        exact ⟨⟨none, by simp [Swap.linked]⟩, diskPage_writeswap_self _ _ _⟩
      · cases hg
  · intro c hc
    rw [← h.disk c fun g hg => hc g (List.mem_append_left _ hg)]
    exact diskPage_writeswap (hc f (by simp)) _ _

/-- The rest of the loop. -/
theorem loop {n : Nat} {r : Int} (h : Growing p sz top L E pd s F t) (hused : ∀ g ∈ L, s.swap.bitmap g ≠ -1)
    (hring : E = [] ∨ ∃ e ∈ E, ¬EntryIn (s.ptable p).pid sz top e) (hk : top ≤ kernBase) (hr : 0 ≤ r) (htop : sz + (F.length + n) * pgSize ≤ top)
    (hpte : ∀ j, F.length ≤ j → j < F.length + n → pd.pte? (sz + j * pgSize) = some Pte.blank)
    (hloop : growprocLoop p n F.length t = .ok (r, s')) : ∃ F', F'.length = F.length + n ∧ Growing p sz top L E pd s F' s' := by
  induction n generalizing F t with
  | zero =>
    cases hloop
    exact ⟨F, rfl, h⟩
  | succ n ih =>
    rw [growprocLoop] at hloop
    obtain ⟨⟨r₁, t₁⟩, hout, hloop⟩ := bind_eq_ok.1 hloop
    have haddr : ((t.ptable p).sz + F.length * pgSize) % wordSize = sz + F.length * pgSize := by
      rw [h.size]
      refine Nat.mod_eq_of_lt ?_
      simp only [pgSize, kernBase, wordSize] at *
      omega
    rw [Kernel.setProc_same] at hout
    dsimp only at hout hloop
    rw [haddr] at hout
    split at hloop
    · cases hloop
      exact absurd hr (by decide)
    · next hr₁ =>
      obtain ⟨f, hf⟩ := h.page hused hring (hpte _ le_rfl (by omega)) (by simp only [pgSize] at *; omega) hk hout (by omega)
      have hlen : (F ++ [f]).length = F.length + 1 := by simp
      rw [← hlen] at hloop
      have htop' : sz + ((F ++ [f]).length + n) * pgSize ≤ top := by
        rw [hlen, Nat.add_assoc, Nat.add_comm 1 n]
        exact htop
      have hpte' : ∀ j, (F ++ [f]).length ≤ j → j < (F ++ [f]).length + n → pd.pte? (sz + j * pgSize) = some Pte.blank := by
        intro j h1 h2
        have h3 : F.length ≤ j := by omega
        have h4 : j < F.length + (n + 1) := by omega
        exact hpte j h3 h4
      obtain ⟨F', hF', h'⟩ := ih hf htop' hpte' hloop
      exact ⟨F', by omega, h'⟩

theorem slotOf_old (h : Growing p sz top L E pd s F t) (hv : v < sz) : slotOf t.swap (L ++ F) v = slotOf s.swap L v := by
  have hF : F.find? (fun i => (t.swap.frames i).vaddr = v) = none := by
    rw [List.find?_eq_none]
    intro f hf
    obtain ⟨j, hj⟩ := List.mem_iff_getElem?.1 hf
    obtain ⟨nx, hnx⟩ := (h.new j f hj).1
    simp only [hnx, decide_eq_true_eq]
    omega
  unfold slotOf
  rw [List.find?_append, hF, Option.or_none]
  refine List.find?_congr fun g hg => ?_
  obtain ⟨nx, hnx⟩ := h.old g hg
  rw [hnx]

theorem slotOf_new (h : Growing p sz top L E pd s F t) (hfresh : ∀ g ∈ L, (s.swap.frames g).vaddr < sz ∨ top ≤ (s.swap.frames g).vaddr)
    {j : Nat} (hj : j < F.length) (htop : sz + j * pgSize < top) : ∃ f, F[j]? = some f ∧ slotOf t.swap (L ++ F) (sz + j * pgSize) = some f := by
  obtain ⟨f, hf⟩ : ∃ f, F[j]? = some f := ⟨F[j], List.getElem?_eq_getElem hj⟩
  refine ⟨f, hf, ?_⟩
  have hL : L.find? (fun i => (t.swap.frames i).vaddr = sz + j * pgSize) = none := by
    rw [List.find?_eq_none]
    intro g hg
    obtain ⟨nx, hnx⟩ := h.old g hg
    have h2 := hfresh g hg
    simp only [hnx, decide_eq_true_eq]
    omega
  unfold slotOf
  rw [List.find?_append, hL, Option.none_or, List.find?_eq_some_iff_getElem]
  obtain ⟨nx, hnx⟩ := (h.new j f hf).1
  refine ⟨by simp [hnx], j, hj, by simpa [List.getElem?_eq_getElem hj] using hf, fun i hi => ?_⟩
  obtain ⟨nx', hnx'⟩ := (h.new i F[i] (List.getElem?_eq_getElem (by omega))).1
  simp only [hnx', pgSize, Bool.not_eq_true', decide_eq_false_iff_not]
  omega

end Growing

/-! ## The call -/

/-- The pages that a growth adds. -/
def newPages (sz newsz : Nat) : Nat := (pgRoundUp newsz - pgRoundUp sz) / pgSize

/-- The room for the growth and for one page to be brought in after it. -/
structure GrowRoom (newsz : Nat) (pd : PageDir) (E : List (Int × Nat)) (sz : Nat) (m : Phys) : Prop where
  entries : E.length < maxFrameLru
  pages : tablesNeeded pd (pgRoundUp sz) (pgRoundUp newsz - 1) < m.freelist.length

/-- A page is left after the growth. -/
theorem GrowRoom.left {newsz sz : Nat} {E : List (Int × Nat)} {m m' : Phys} (h : GrowRoom newsz pd E sz m) (hsz : pgRoundUp sz = sz)
    (hspent : m'.freelist.length + tablesNeeded pd sz (pgRoundUp newsz - 1) = m.freelist.length) : m'.freelist ≠ [] := by
  intro hnil
  have hpages := h.pages
  rw [hsz] at hpages
  rw [hnil, List.length_nil] at hspent
  omega

/-- The slots of the process are in use, none of them is of a page to be added, and the ring does not consist of
entries of such pages. -/
structure Fresh (p : ProcIdx) (newsz : Nat) (s : Kernel) (L : List SlotIdx) (E : List (Int × Nat)) : Prop where
  aligned : (s.ptable p).sz % pgSize = 0
  used : ∀ g ∈ L, s.swap.bitmap g ≠ -1
  slots : ∀ g ∈ L, (s.swap.frames g).vaddr < (s.ptable p).sz ∨ pgRoundUp newsz ≤ (s.swap.frames g).vaddr
  ring : E = [] ∨ ∃ e ∈ E, ¬EntryIn (s.ptable p).pid (s.ptable p).sz (pgRoundUp newsz) e

theorem userFrame_eq {wr : Bool} (hpd : (s.ptable p).pgdir = some pd) : userFrame p a wr s =
    if (pd.pte a).present && (pd.pte a).user && (!wr || (pd.pte a).write) then some (pd.pte a).frame else none := by
  unfold userFrame PageDir.pte
  rw [hpd, Option.bind_eq_bind, Option.bind_some]
  cases pd.pte? a with
  | none => rfl
  | some pte => rfl

/-- A growth that succeeds: `allocuvm` has mapped the new pages and the loop has put zeros in slots for them. -/
theorem growproc_grows {n : Int} (hpd : (s.ptable p).pgdir = some pd) (hsz : (s.ptable p).sz ≤ kernBase) (hn : 0 < n) (hint : n < 2 ^ 31)
    (h : growproc p n s = .ok (0, s')) : ∃ (newsz : Nat) (pd₁ : PageDir) (m₁ : Phys) (t : Kernel) (r : Int), ((s.ptable p).sz + n) % wordSize = newsz ∧ (s.ptable p).sz ≤ newsz ∧
      newsz < kernBase ∧ Blanks pd s.phys pd₁ m₁ ∧
      allocuvmLoop p false (newPages (s.ptable p).sz newsz) (pgRoundUp (s.ptable p).sz) pd s = .ok (true, pd₁, { s with phys := m₁ }) ∧
      growprocLoop p (newPages (s.ptable p).sz newsz) 0 (({ s with phys := m₁ } : Kernel).setPgdir p pd₁) = .ok (r, t) ∧ 0 ≤ r ∧
      s' = t.setProc p { t.ptable p with sz := newsz } := by
  generalize hsz₀ : (s.ptable p).sz = sz at *
  obtain ⟨newsz, hnew, hle⟩ : ∃ newsz : Nat, (sz + n) % wordSize = newsz ∧ sz ≤ newsz := by
    refine ⟨(sz + n).toNat, ?_, ?_⟩ <;> simp only [kernBase, wordSize] at * <;> omega
  unfold growproc at h
  dsimp only at h
  rw [if_neg (by omega), hpd, deref_some, ok_bind, if_pos hn, hsz₀, hnew, Int.toNat_natCast] at h
  by_cases hk : kernBase ≤ newsz
  · rw [allocuvm, if_pos hk] at h
    cases h
  obtain ⟨hal, hend, htop⟩ := pgRoundUp_rounds hle (by omega)
  have hrounds : (newsz - pgRoundUp sz + pgSize - 1) / pgSize = newPages sz newsz := by
    unfold newPages
    simp only [pgSize] at *
    omega
  have hpages : subWord (pgRoundUp newsz) (pgRoundUp sz) / pgSize = newPages sz newsz := by
    unfold newPages
    simp only [subWord, pgSize, kernBase, wordSize] at *
    omega
  rw [hrounds] at hend
  rw [allocuvm, if_neg hk, if_neg (by omega)] at h
  dsimp only at h
  rw [hrounds] at h
  have hw : pgRoundUp sz + newPages sz newsz * pgSize ≤ wordSize := by
    rw [hend]
    simp only [kernBase, wordSize] at *
    omega
  obtain ⟨done, pd₁, m₁, hloop, hbl, -, -⟩ := allocuvmLoop_blank p (newPages sz newsz) (pgRoundUp sz) pd s hal hw
  rw [hloop, ok_bind] at h
  dsimp only at h
  simp only [pure_ok, ok_bind] at h
  cases done with
  | false =>
    simp only [Bool.false_eq_true, if_false, if_true] at h
    cases h
  | true =>
    have hne : newsz ≠ 0 := by
      simp only [wordSize] at *
      omega
    simp only [if_true, if_neg hne] at h
    rw [hpages] at h
    obtain ⟨⟨r, t⟩, hslots, h⟩ := bind_eq_ok.1 h
    dsimp only at h
    split at h
    · cases h
    · next hr₀ =>
      obtain ⟨-, -, h⟩ := bind_eq_ok.1 h
      cases h
      exact ⟨newsz, pd₁, m₁, t, r, hnew, hle, by omega, hbl, hloop, hslots, by omega, rfl⟩

/-- What a growth from the end of a page leaves. -/
theorem growproc_growing {n : Int} {E : List (Int × Nat)} {newsz : Nat} (hpd : (s.ptable p).pgdir = some pd) (hsz : (s.ptable p).sz ≤ kernBase)
    (hn : 0 < n) (hint : n < 2 ^ 31) (hL : SwapList s.swap (s.ptable p).swapList L) (hlk : s.swap.lk = false) (hE : Queue s.lru E)
    (hnew : ((s.ptable p).sz + n) % wordSize = newsz) (hfresh : Fresh p newsz s L E)
    (h : growproc p n s = .ok (0, s')) : ∃ pd₁ m₁ F t, Blanks pd s.phys pd₁ m₁ ∧
      Reaches (newPages (s.ptable p).sz newsz) (s.ptable p).sz pd s.phys true pd₁ m₁ ∧
      (s.ptable p).sz + newPages (s.ptable p).sz newsz * pgSize = pgRoundUp newsz ∧ pgRoundUp newsz ≤ kernBase ∧
      F.length = newPages (s.ptable p).sz newsz ∧
      Growing p (s.ptable p).sz (pgRoundUp newsz) L E pd₁ (({ s with phys := m₁ } : Kernel).setPgdir p pd₁) F t ∧
      s' = t.setProc p { t.ptable p with sz := newsz } ∧
      m₁.freelist.length + tablesNeeded pd (s.ptable p).sz (pgRoundUp newsz - 1) = s.phys.freelist.length := by
  obtain ⟨newsz', pd₁, m₁, t, r, hnew', hle, hlt, hbl, halloc, hloop, hr₀, rfl⟩ := growproc_grows hpd hsz hn hint h
  obtain rfl : newsz' = newsz := by
    have := hnew'.symm.trans hnew
    omega
  have hup := pgRoundUp_aligned hfresh.aligned hsz
  obtain ⟨-, -, htop⟩ := pgRoundUp_rounds hle hlt
  have hend : (s.ptable p).sz + newPages (s.ptable p).sz newsz' * pgSize = pgRoundUp newsz' := by
    have := hfresh.aligned
    unfold newPages
    rw [hup]
    simp only [pgRoundUp, pgSize, kernBase, wordSize] at *
    omega
  have hr := allocuvmLoop_reaches (by rw [hup]; exact hfresh.aligned)
    (by rw [hup, hend]; simp only [kernBase, wordSize] at *; omega) halloc
  rw [hup] at hr
  have hself : (({ s with phys := m₁ } : Kernel).setPgdir p pd₁).ptable p = { s.ptable p with pgdir := some pd₁ } := by simp [Kernel.setPgdir]
  have h₀ : Growing p (s.ptable p).sz (pgRoundUp newsz') L E pd₁ (({ s with phys := m₁ } : Kernel).setPgdir p pd₁) []
      (({ s with phys := m₁ } : Kernel).setPgdir p pd₁) := by
    refine Growing.refl ?_ ?_ ?_ hlk hE <;> rw [hself]
    exact hL
  have hfits : (s.ptable p).sz + (([] : List SlotIdx).length + newPages (s.ptable p).sz newsz') * pgSize ≤ pgRoundUp newsz' := by
    rw [List.length_nil, Nat.zero_add, hend]
  have hpte : ∀ j, ([] : List SlotIdx).length ≤ j → j < ([] : List SlotIdx).length + newPages (s.ptable p).sz newsz' →
      pd₁.pte? ((s.ptable p).sz + j * pgSize) = some Pte.blank := by
    intro j _ hj
    rw [List.length_nil, Nat.zero_add] at hj
    have hb : (s.ptable p).sz + j * pgSize < (s.ptable p).sz + newPages (s.ptable p).sz newsz' * pgSize := by
      simp only [pgSize]
      omega
    have hblank := hr.mapped _ (Nat.le_add_right _ _) hb (hr.all.1 rfl _ (Nat.le_add_right _ _) hb)
    rw [PageDir.pte] at hblank
    cases hc : pd₁.pte? ((s.ptable p).sz + j * pgSize) with
    | none =>
      rw [hc] at hblank
      exact absurd hblank (by decide)
    | some pte =>
      rw [hc] at hblank
      exact congrArg some hblank
  obtain ⟨F, hF, hg⟩ := h₀.loop hfresh.used (by rw [hself]; exact hfresh.ring) htop hr₀ hfits hpte hloop
  refine ⟨pd₁, m₁, F, t, hbl, hr, hend, htop, by simpa using hF, hg, rfl, ?_⟩
  rcases Nat.eq_zero_or_pos (newPages (s.ptable p).sz newsz') with hz | hpos
  · rw [hz] at hend
    simp only [pgRoundUp, pgSize, kernBase, wordSize] at *
    omega
  · rw [← hend]
    exact hr.spent rfl hpos

section Grown

variable {sz newsz top : Nat} {E : List (Int × Nat)} {F : List SlotIdx} {pd₁ : PageDir} {m₁ : Phys}

/-- A page can be brought in after the growth. -/
theorem Growing.canLoad (h : Growing p sz top L E pd₁ s F t) (newsz : Nat) (hN : E.length < maxFrameLru) (hfl : s.phys.freelist ≠ []) :
    CanLoad p (L ++ F) (t.setProc p { t.ptable p with sz := newsz }) := by
  obtain ⟨E', hE', hless⟩ := h.ring
  have hlen := hless.sub.length_le
  refine ⟨?_, h.unlocked, ⟨E', hE', by omega⟩, ?_⟩
  · rw [Kernel.setProc_same]
    exact h.list
  · rw [Kernel.setProc_phys, h.phys]
    exact hfl

/-- A new page holds zeros. -/
theorem Growing.zero (h : Growing p sz (pgRoundUp newsz) L E pd₁ s F t) (hF : sz + F.length * pgSize = pgRoundUp newsz) (hal : sz % pgSize = 0)
    (hslots : ∀ g ∈ L, (s.swap.frames g).vaddr < sz ∨ pgRoundUp newsz ≤ (s.swap.frames g).vaddr)
    (hpte : ∀ b, sz ≤ b → b < pgRoundUp newsz → pd₁.pte b = Pte.blank) (hlo : sz ≤ a) (hhi : a < pgRoundUp newsz) :
    PageBytes p (L ++ F) (pgRoundDown a) zeroPage (t.setProc p { t.ptable p with sz := newsz }) := by
  obtain ⟨j, hj, hv⟩ : ∃ j < F.length, pgRoundDown a = sz + j * pgSize := by
    refine ⟨(a - sz) / pgSize, ?_, ?_⟩ <;> simp only [pgRoundDown, pgSize] at * <;> omega
  have hvtop : sz + j * pgSize < pgRoundUp newsz := by
    simp only [pgSize] at *
    omega
  obtain ⟨f, hf, hslot⟩ := h.slotOf_new hslots hj hvtop
  obtain ⟨pd', hpd', hsame⟩ := h.dir
  obtain ⟨⟨nx, hnx⟩, hzero⟩ := h.new j f hf
  have hdir : ((t.setProc p { t.ptable p with sz := newsz }).ptable p).pgdir = some pd' := by
    rw [Kernel.setProc_same]
    exact hpd'
  rw [hv]
  refine .swapped f ?_ hslot ?_
  · have hblank := hpte (sz + j * pgSize) (by omega) hvtop
    rw [userFrame_eq hdir, PageDir.pte, hsame, ← PageDir.pte, hblank]
    rfl
  · show diskPage t.disk ((t.swap.frames f).swap.start + f * 8) = zeroPage
    rw [hnx]
    exact hzero

/-- A page below the size keeps its bytes where no slot of the new pages has the blocks of its slot. -/
theorem Growing.kept (h : Growing p sz top L E pd₁ (({ s with phys := m₁ } : Kernel).setPgdir p pd₁) F t) (newsz : Nat)
    (hnew : ∀ f ∈ F, f ∉ L) (hpd : (s.ptable p).pgdir = some pd) (hpte : pd₁.pte v = pd.pte v) (hv : v < sz)
    (htakes : s.phys.Takes m₁)
    (hfr : (pd.pte v).present = true → (pd.pte v).frame ∉ s.phys.freelist)
    (hapart : userFrame p v false s = none → ∀ g, slotOf s.swap L v = some g → ∀ f ∈ F, ¬collide .heap f (s.swap.frames g).swap g)
    (hb : PageBytes p L v pg s) : PageBytes p (L ++ F) v pg (t.setProc p { t.ptable p with sz := newsz }) := by
  obtain ⟨pd', hpd', hsame⟩ := h.dir
  have hdir : ((t.setProc p { t.ptable p with sz := newsz }).ptable p).pgdir = some pd' := by
    rw [Kernel.setProc_same]
    exact hpd'
  have huf : userFrame p v false (t.setProc p { t.ptable p with sz := newsz }) = userFrame p v false s := by
    rw [userFrame_eq hdir, userFrame_eq hpd, PageDir.pte, hsame, ← PageDir.pte, hpte]
  cases hb with
  | present f hf hm =>
    refine .present f (huf.trans hf) ?_
    rw [userFrame_eq hpd] at hf
    split at hf
    · next hp =>
      cases hf
      simp only [Bool.and_eq_true] at hp
      obtain ⟨T, hT, hmem⟩ := htakes.taken
      show t.phys.mem _ = pg
      rw [h.phys]
      show m₁.mem _ = pg
      rw [hmem _ fun hin => hfr hp.1.1 (by rw [hT]; exact List.mem_append_left _ hin), hm]
    · cases hf
  | swapped y hf hy hd =>
    have hyL : y ∈ L := List.mem_of_find?_eq_some hy
    refine .swapped y (huf.trans hf) ((h.slotOf_old hv).trans hy) ?_
    show diskPage t.disk ((t.swap.frames y).swap.start + y * 8) = pg
    obtain ⟨nx, hnx⟩ := h.old y hyL
    rw [hnx, h.disk]
    · exact hd
    · intro f hfF
      have hne : f ≠ y := by
        rintro rfl
        exact hnew f hfF hyL
      exact (disjoint_iff_not_collide fun hc => hne (Fin.ext hc)).2 (hapart hf y hy f hfF)

/-- The slots of the new pages are the lowest free ones. -/
theorem Growing.slot_low (h : Growing p sz top L E pd₁ s F t) {f : SlotIdx} (hf : f ∈ F) :
    s.swap.bitmap f = -1 ∧ (Finset.univ.filter fun g => g < f ∧ s.swap.bitmap g = -1).card < F.length := by
  refine ⟨h.free f hf, ?_⟩
  have hsub : (Finset.univ.filter fun g => g < f ∧ s.swap.bitmap g = -1) ⊆ F.toFinset.erase f := by
    intro g hg
    rw [Finset.mem_filter] at hg
    rw [Finset.mem_erase, List.mem_toFinset]
    exact ⟨ne_of_lt hg.2.1, h.lowest f hf g hg.2.1 hg.2.2⟩
  have hcard := Finset.card_le_card hsub
  have hmem : f ∈ F.toFinset := List.mem_toFinset.2 hf
  rw [Finset.card_erase_of_mem hmem] at hcard
  have hpos := Finset.card_pos.2 ⟨f, hmem⟩
  have hle := F.toFinset_card_le
  omega

end Grown

/-- The new pages of a growth from the end of a page are read as zeros. -/
theorem growproc_zero {n : Int} {E : List (Int × Nat)} {newsz : Nat} (hpd : (s.ptable p).pgdir = some pd) (hsz : (s.ptable p).sz ≤ kernBase)
    (hn : 0 < n) (hint : n < 2 ^ 31) (hL : SwapList s.swap (s.ptable p).swapList L) (hlk : s.swap.lk = false) (hE : Queue s.lru E)
    (hnew : ((s.ptable p).sz + n) % wordSize = newsz) (hfresh : Fresh p newsz s L E) (hroom : GrowRoom newsz pd E (s.ptable p).sz s.phys)
    (h : growproc p n s = .ok (0, s')) (hlo : (s.ptable p).sz ≤ a) (hhi : a < pgRoundUp newsz) : ∃ t, userLoad p a s' = .ok (0, t) := by
  obtain ⟨pd₁, m₁, F, t, hbl, hr, hend, htop, hF, hg, rfl, hspent⟩ := growproc_growing hpd hsz hn hint hL hlk hE hnew hfresh h
  have hfl := hroom.left (pgRoundUp_aligned hfresh.aligned hsz) hspent
  obtain ⟨pd', hpd', hsame⟩ := hg.dir
  have hmapped : ∀ b, (s.ptable p).sz ≤ b → b < pgRoundUp newsz → pd₁.pte b = Pte.blank := by
    intro b h1 h2
    rw [← hend] at h2
    exact hr.mapped b h1 h2 (hr.all.1 rfl b h1 h2)
  have hb := hg.zero (hF ▸ hend) hfresh.aligned hfresh.slots hmapped hlo hhi
  refine userLoad_bytes (hg.canLoad newsz hroom.entries hfl) (by rw [Kernel.setProc_same]; exact hpd') (by omega) ?_ hb
  rw [hsame]
  intro hnone
  have hblank := hmapped a hlo hhi
  rw [PageDir.pte, hnone] at hblank
  exact absurd hblank (by decide)

/-! ## Growing -/

/-- A growth loses nothing: it adds no page; or it starts at the end of a page, finds no slot and no ring of the pages
to be added, and the free slots it takes collide with no slot of a page that is out. -/
def GrowsClean (p : ProcIdx) (newsz : Nat) (s : Kernel) (L : List SlotIdx) (E : List (Int × Nat)) : Prop :=
  pgRoundUp newsz = pgRoundUp (s.ptable p).sz ∨ Fresh p newsz s L E ∧
    ∀ v < (s.ptable p).sz, userFrame p v false s = none → ∀ g, slotOf s.swap L v = some g → ∀ f, s.swap.bitmap f = -1 →
      (Finset.univ.filter fun b => b < f ∧ s.swap.bitmap b = -1).card < newPages (s.ptable p).sz newsz →
      ¬collide .heap f (s.swap.frames g).swap g

/-- The bytes below the size are read as before, and zeros in the new pages. -/
def GrowsRight (p : ProcIdx) (newsz : Nat) (L : List SlotIdx) (s s' : Kernel) : Prop :=
  (∀ a < (s.ptable p).sz, userFrame p a false s ≠ none ∨ slotOf s.swap L (pgRoundDown a) ≠ none →
    ∃ b t t', userLoad p a s = .ok (b, t) ∧ userLoad p a s' = .ok (b, t')) ∧
  ∀ a, pgRoundUp (s.ptable p).sz ≤ a → a < pgRoundUp newsz → ∃ t, userLoad p a s' = .ok (0, t)

theorem exists_pageBytes (h : userFrame p a false s ≠ none ∨ slotOf s.swap L (pgRoundDown a) ≠ none) :
    ∃ pg, PageBytes p L (pgRoundDown a) pg s := by
  rw [← userFrame_page (pgRoundDown_page a)] at h
  cases hf : userFrame p (pgRoundDown a) false s with
  | some f => exact ⟨_, .present f hf rfl⟩
  | none =>
    cases hy : slotOf s.swap L (pgRoundDown a) with
    | some y => exact ⟨_, .swapped y hf hy rfl⟩
    | none => simp [hf, hy] at h

end DemandPaging
