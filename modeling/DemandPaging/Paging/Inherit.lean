/-
What a child reads first. A fork copies the pages that are present and shares the swap list, so a page that the
parent has loaded reads the same in the child. A page that the parent has not loaded is filled in the child from
the segment and the inode that stand in its entry of the process table, and `fork` does not set those.
-/
import DemandPaging.Exec.Demand
import DemandPaging.Paging.Growth

namespace DemandPaging

variable {p np : ProcIdx} {s s' : Kernel} {pd d d' : PageDir} {L : List SlotIdx} {E : List (Int × Nat)} {a : Nat}

/-! ## The copy of a page -/

theorem Phys.Takes.mem_eq {m m' : Phys} {f : Nat} (h : m.Takes m') (hf : f ∉ m.freelist) : m'.mem f = m.mem f := by
  obtain ⟨T, hT, hmem⟩ := h.taken
  rw [hT, List.mem_append, not_or] at hf
  exact hmem f hf.1

theorem Phys.Takes.subset {m m' : Phys} (h : m.Takes m') : m'.freelist.Sublist m.freelist := by
  obtain ⟨T, hT, -⟩ := h.taken
  rw [hT]
  exact List.sublist_append_right T _

/-- What a copy makes of an entry of the parent: an entry that is not present, or a page with the same bytes. -/
inductive CopyOf (pte : Pte) (m : Phys) (d : PageDir) (b : Nat) (m' : Phys) : Prop
  | absent (pte' : Pte) (hp : pte.present = false) (hd : d.pte? b = some pte') (hp' : pte'.present = false)
  | page (f : Nat) (hp : pte.present = true) (hd : d.pte? b = some ⟨⟨true, pte.write, pte.user⟩, f⟩)
      (hm : m'.mem f = m.mem pte.frame) (hf : f ∉ m'.freelist)

namespace CopyOf

variable {pte : Pte} {m m' m'' : Phys} {b : Nat}

theorem later (h : CopyOf pte m d b m') (hd : ∀ e, d.pte? b = some e → d'.pte? b = some e) (ht : m'.Takes m'') :
    CopyOf pte m d' b m'' := by
  cases h with
  | absent pte' hp hb hp' => exact .absent pte' hp (hd _ hb) hp'
  | page f hp hb hm hf => exact .page f hp (hd _ hb) ((ht.mem_eq hf).trans hm) fun hc => hf (ht.subset.subset hc)

theorem entry (h : CopyOf pte m d b m') : d.pte? b ≠ none := by
  cases h with
  | absent pte' hp hb hp' => simp [hb]
  | page f hp hb hm hf => simp [hb]

theorem sooner {m₀ : Phys} (h : CopyOf pte m d b m') (hm : pte.present = true → m.mem pte.frame = m₀.mem pte.frame) :
    CopyOf pte m₀ d b m' := by
  cases h with
  | absent pte' hp hb hp' => exact .absent pte' hp hb hp'
  | page f hp hb hmem hf => exact .page f hp hb (hmem.trans (hm hp)) hf

end CopyOf

/-- The rounds of `copyuvm` over the pages from `i` on, when the ring has an entry for each: what they take and
what they leave in the new directory. -/
structure CopiedFrom (pd : PageDir) (n i : Nat) (E : List (Int × Nat)) (d : PageDir) (s : Kernel) (d' : PageDir) (s' : Kernel) : Prop where
  state : ∃ l m, s' = { s with lru := l, phys := m }
  ring : ∃ E', Queue s'.lru (E ++ E') ∧ E'.length ≤ n
  takes : s.phys.Takes s'.phys
  length : s.phys.freelist.length ≤ s'.phys.freelist.length + 2 * n
  below : ∀ b < i, ∀ e, d.pte? b = some e → d'.pte? b = some e
  pages : ∀ b, i ≤ b → b < i + n * pgSize → ∃ pte, pd.pte? b = some pte ∧ CopyOf pte s.phys d' b s'.phys

/-- One page more: the round that fills the page at `i`, and the rounds after it. -/
theorem CopiedFrom.round {n i : Nat} {s₁ : Kernel} {E₁ : List (Int × Nat)} {pte : Pte}
    (hrest : CopiedFrom pd n (i + pgSize) (E ++ E₁) d s₁ d' s') (hE₁ : E₁.length ≤ 1) (hal : i % pgSize = 0)
    (hkernel : ∃ l m, s₁ = { s with lru := l, phys := m }) (htakes : s.phys.Takes s₁.phys)
    (hlen : s.phys.freelist.length ≤ s₁.phys.freelist.length + 2) {d₀ : PageDir}
    (hbelow : ∀ b < i, ∀ e, d₀.pte? b = some e → d.pte? b = some e)
    (hpte : pd.pte? i = some pte) (hcopy : CopyOf pte s.phys d i s₁.phys)
    (hfree : ∀ b, i ≤ b → b < i + (n + 1) * pgSize → (pd.pte b).present = true → (pd.pte b).frame ∉ s.phys.freelist) :
    CopiedFrom pd (n + 1) i E d₀ s d' s' where
  state := by
    obtain ⟨l, m, rfl⟩ := hkernel
    obtain ⟨l', m', h'⟩ := hrest.state
    exact ⟨l', m', h'⟩
  ring := by
    obtain ⟨E', hq, hl⟩ := hrest.ring
    refine ⟨E₁ ++ E', by rwa [← List.append_assoc], ?_⟩
    rw [List.length_append]
    omega
  takes := htakes.trans hrest.takes
  length := by have := hrest.length; omega
  below b hb e he := hrest.below b (by omega) e (hbelow b hb e he)
  pages b hb hlt := by
    by_cases hpage : b < i + pgSize
    · -- the page of this round
      have hsame : b / pgSize = i / pgSize := by simp only [pgSize] at *; omega
      refine ⟨pte, by rw [pte?_page hsame, hpte], ?_⟩
      have hlater : CopyOf pte s.phys d' i s'.phys := hcopy.later (hrest.below i (by simp [pgSize])) hrest.takes
      cases hlater with
      | absent pte' hp hd hp' => exact .absent pte' hp (by rw [pte?_page hsame, hd]) hp'
      | page f hp hd hm hf => exact .page f hp (by rw [pte?_page hsame, hd]) hm hf
    · -- a later one: its frame was not free, so this round has not written to it
      obtain ⟨pte', hpte', hcopy'⟩ := hrest.pages b (by omega) (by simp only [pgSize] at *; omega)
      refine ⟨pte', hpte', hcopy'.sooner fun hp => htakes.mem_eq ?_⟩
      have := hfree b hb hlt
      rw [PageDir.pte, hpte', Option.getD_some] at this
      exact this hp

theorem Mapped.below {i b : Nat} {pte e : Pte} {m m' : Phys} (h : Mapped i pte d m d' m') (hi : i < wordSize) (hal : i % pgSize = 0)
    (hb : b < i) (he : d.pte? b = some e) : d'.pte? b = some e := by
  have hother : ¬(pdx b = pdx i ∧ ptx b = ptx i) := by
    rw [index_eq_iff (by omega) hi]
    simp only [pgSize] at *
    omega
  have hpte := h.other b hother
  have htab : pdx b ∈ d'.present := by
    apply h.grows
    rw [mem_present, Ne, ← pte?_eq_none, he]
    simp
  rw [mem_present, Ne, ← pte?_eq_none] at htab
  obtain ⟨e', he'⟩ := Option.ne_none_iff_exists'.1 htab
  rw [PageDir.pte, PageDir.pte, he, he'] at hpte
  rw [he', show e' = e from hpte]

/-- `copyuvm` copies the pages of the parent. -/
theorem copyuvmLoop_copies : ∀ {n i : Nat} {mem : Option Nat} {d d' : PageDir} {s s' : Kernel} {E : List (Int × Nat)},
    Queue s.lru E → E.length + n ≤ maxFrameLru → (s.ptable p).pgdir = some pd → i % pgSize = 0 → i + n * pgSize ≤ kernBase →
    s.phys.freelist.Nodup →
    (∀ b, i ≤ b → b < i + n * pgSize → (pd.pte b).present = true → (pd.pte b).frame ∉ s.phys.freelist) →
    copyuvmLoop p np n i mem d s = .ok (true, d', s') → CopiedFrom pd n i E d s d' s'
  | 0, i, _, d, _, s, _, E, hE, _, _, _, _, _, _, h => by
    cases h
    exact ⟨⟨s.lru, s.phys, rfl⟩, ⟨[], by simpa using hE, le_rfl⟩, .refl _, by omega, fun _ _ _ he => he, fun b h1 h2 => by omega⟩
  | n + 1, i, mem, d, d', s, s', E, hE, hlen, hpd, hal, hk, hnd, hfree, h => by
    have hal' : (i + pgSize) % pgSize = 0 := by simp only [pgSize] at *; omega
    have hk' : i + pgSize + n * pgSize ≤ kernBase := by simp only [pgSize] at *; omega
    have hw : i < wordSize := by simp only [pgSize, kernBase, wordSize] at *; omega
    -- what is left to copy is not on a shorter free list either
    have hfree' : ∀ fl : List Nat, fl.Sublist s.phys.freelist → ∀ b, i + pgSize ≤ b → b < i + pgSize + n * pgSize →
        (pd.pte b).present = true → (pd.pte b).frame ∉ fl := fun fl hsub b h1 h2 hp hc =>
      hfree b (by omega) (by simp only [pgSize] at *; omega) hp (hsub.subset hc)
    rw [copyuvmLoop, hpd, deref_some, ok_bind] at h
    cases hpte : pd.pte? i with
    | none => rw [hpte] at h; cases h
    | some pte =>
      rw [hpte] at h
      dsimp only at h
      by_cases hpres : pte.present = false
      · rw [if_pos hpres] at h
        rcases mappages_page_cases (mem.elim kernBase (· * pgSize)) ⟨false, true, true⟩ false d s.phys hal hw with
          ⟨-, -, hmap⟩ | ⟨d₁, m₁, hmap, hmapped⟩
        · rw [hmap] at h
          cases h
        · rw [hmap] at h
          have hrest := copyuvmLoop_copies (s := { s with phys := m₁ }) hE (by omega) hpd hal' hk'
            (hnd.sublist hmapped.takes.subset) (hfree' _ hmapped.takes.subset) h
          have hlen₁ := hmapped.length
          exact CopiedFrom.round (show CopiedFrom pd n (i + pgSize) (E ++ []) _ _ _ _ by simpa using hrest) (by simp) hal ⟨s.lru, m₁, rfl⟩ hmapped.takes
            (by simp only; omega) (fun b hb e he => hmapped.below hw hal hb he) hpte (.absent _ hpres hmapped.entry rfl) hfree
      · rw [if_neg hpres] at h
        have hpres : pte.present = true := by simpa using hpres
        have hframe : pte.frame ∉ s.phys.freelist := by
          have := hfree i le_rfl (by simp only [pgSize]; omega)
          rw [PageDir.pte, hpte, Option.getD_some] at this
          exact this hpres
        cases hfl : s.phys.freelist with
        | nil =>
          obtain ⟨⟨x, s₁⟩, hka, h⟩ := bind_eq_ok.1 h
          unfold kalloc kallocPage at hka
          rw [hfl] at hka
          cases hka
          cases h
        | cons f fl =>
          obtain ⟨hffl, hndfl⟩ := List.nodup_cons.1 (hfl ▸ hnd)
          generalize (if (s.ptable p).cdbSize < i then (i : Int) else -1) = lru at h
          obtain ⟨l, E₁, hka, hq, hlen₁, -⟩ := kalloc_append hE (by omega) hfl (s.ptable np).pid lru
          rw [hka] at h
          simp only [ok_bind, hpd, deref_some, hpte] at h
          -- the page is taken, and written with the bytes of the parent
          have hpop := Phys.Takes.pop hfl (s.phys.mem pte.frame)
          rcases mappages_page_cases (f * pgSize) pte.toFlags true d ({ s.phys with freelist := fl }.setPage f (s.phys.mem pte.frame))
            hal hw with ⟨-, -, hmap⟩ | ⟨d₁, m₁, hmap, hmapped⟩
          · rw [hmap] at h
            obtain ⟨s₂, -, h⟩ := bind_eq_ok.1 h
            cases h
          · rw [hmap] at h
            have htakes : s.phys.Takes m₁ := hpop.trans hmapped.takes
            have hrest := copyuvmLoop_copies (s := { s with lru := l, phys := m₁ }) hq (by rw [List.length_append]; omega) hpd
              hal' hk' (hnd.sublist htakes.subset) (hfree' _ htakes.subset) h
            have hmem : m₁.mem f = s.phys.mem pte.frame := (hmapped.takes.mem_eq hffl).trans (Phys.setPage_self _ f _)
            have hlength : fl.length ≤ m₁.freelist.length + 1 := hmapped.length
            have hentry := hmapped.entry
            rw [Bool.or_true, Nat.mul_div_cancel _ (by decide)] at hentry
            refine CopiedFrom.round hrest hlen₁ hal ⟨l, m₁, rfl⟩ htakes ?_ (fun b hb e he => hmapped.below hw hal hb he) hpte
              (.page f hpres hentry hmem fun hc => hffl (hmapped.takes.subset.subset hc)) hfree
            rw [hfl, List.length_cons]
            simp only
            omega

/-! ## After a fork -/

/-- The child of a fork that evicted nothing: the list is shared, and every page of the parent is copied. -/
structure Heir (p np : ProcIdx) (pd : PageDir) (L : List SlotIdx) (E : List (Int × Nat)) (s s' : Kernel) : Prop where
  entry : Fin.find? (fun i => (s.ptable i).state = .unused) = some np
  forked : Forked p np L s s'
  pages : ∃ d, (s'.ptable np).pgdir = some d ∧
    ∀ b < (s.ptable p).sz, ∃ pte, pd.pte? b = some pte ∧ CopyOf pte s.phys d b s'.phys
  ring : ∃ E', Queue s'.lru (E ++ E') ∧ E'.length ≤ userPages (s.ptable p)
  length : s.phys.freelist.length ≤ s'.phys.freelist.length + 66 + 2 * userPages (s.ptable p)

theorem fork_child {r : Int} (h : fork p s = .ok (r, s')) (hr : r ≠ -1) (hp : (s.ptable p).state ≠ .unused)
    (hpd : (s.ptable p).pgdir = some pd) (hsz : (s.ptable p).sz ≤ kernBase) (hL : SwapList s.swap (s.ptable p).swapList L)
    (hE : Queue s.lru E) (hroom : E.length + userPages (s.ptable p) ≤ maxFrameLru) (hnd : s.phys.freelist.Nodup)
    (hheld : ∀ b < kernBase, (pd.pte b).present = true → (pd.pte b).frame ∉ s.phys.freelist) :
    ∃ np, Heir p np pd L E s s' ∧ (s'.ptable np).pid = r := by
  have hentries : userPages (s.ptable p) ≤ freeEntries s.lru := by
    have := hE.freeEntries_eq
    omega
  obtain ⟨np, hfind, hforked⟩ := fork_forked h hr hp hentries hL
  rcases fork_ok h with ⟨hr', -⟩ | ⟨np', s₁, s₂, hal, ⟨hr', -⟩ | ⟨d, hcopy, hcommit, hpid⟩⟩
  · exact absurd hr' hr
  · exact absurd hr' hr
  obtain ⟨hfind', k, fl, hfl, hs₁⟩ := allocproc_some hal
  obtain rfl : np' = np := Option.some.inj (hfind'.symm.trans hfind)
  have hne : np' ≠ p := by
    rintro rfl
    exact hp (by simpa using Fin.eq_true_of_find?_eq_some hfind)
  have hp₁ : s₁.ptable p = s.ptable p := by rw [hs₁]; simp [hne.symm]
  have hlru₁ : s₁.lru = s.lru := by rw [hs₁]
  have hphys₁ : s₁.phys = { s.phys with freelist := fl } := by rw [hs₁]
  -- the kernel stack, and the kernel half of the directory
  have hstack : s.phys.Takes s₁.phys := ⟨by rw [hphys₁], [k], by rw [hphys₁, hfl]; rfl, fun _ _ => by rw [hphys₁]⟩
  have hstackLen : s.phys.freelist.length = s₁.phys.freelist.length + 1 := by rw [hphys₁, hfl, List.length_cons]
  rcases setupkvm_cases (m := s₁.phys) with ⟨-, hno⟩ | ⟨d₀, m₀, -, hset, hdir⟩
  · unfold copyuvm at hcopy
    obtain ⟨⟨d₀, m⟩, hset, hcopy⟩ := bind_eq_ok.1 hcopy
    obtain rfl := hno d₀ m hset
    cases hcopy
  have htakes₀ := hstack.trans hdir.takes
  obtain ⟨s₃, hloop, hs₂⟩ : ∃ s₃, copyuvmLoop p np' (userPages (s.ptable p)) 0 none d₀ { s₁ with phys := m₀ } = .ok (true, d, s₃) ∧
      s₂ = s₃ := by
    unfold copyuvm at hcopy
    rw [hset, ok_bind] at hcopy
    dsimp only at hcopy
    rw [hp₁] at hcopy
    obtain ⟨⟨done, d₁, s₃⟩, hloop, hcopy⟩ := bind_eq_ok.1 hcopy
    cases done with
    | true =>
      cases hcopy
      exact ⟨_, hloop, rfl⟩
    | false =>
      obtain ⟨l, -, hcopy⟩ := bind_eq_ok.1 hcopy
      obtain ⟨s₄, -, hcopy⟩ := bind_eq_ok.1 hcopy
      obtain ⟨m', -, hcopy⟩ := bind_eq_ok.1 hcopy
      cases hcopy
  subst hs₂
  have hsize : userPages (s.ptable p) * pgSize ≤ kernBase := by simp only [userPages, pgSize, kernBase] at *; omega
  have hcopied := copyuvmLoop_copies (s := { s₁ with phys := m₀ }) (by rw [hlru₁]; exact hE) hroom (by rw [hp₁]; exact hpd)
    (by decide) (by omega) (hnd.sublist htakes₀.subset)
    (fun b _ hb hpres hc => hheld b (by omega) hpres (htakes₀.subset.subset hc)) hloop
  obtain ⟨sw, -, hs'⟩ := forkCommit_eq hne hcommit
  have hphys : s'.phys = s₂.phys := by rw [hs']
  have hlru : s'.lru = s₂.lru := by rw [hs']
  refine ⟨np', ⟨hfind, hforked, ⟨d, by rw [hs']; simp, fun b hb => ?_⟩, ?_, ?_⟩, hpid.symm⟩
  · obtain ⟨pte, hpte, hof⟩ := hcopied.pages b (Nat.zero_le _) (by simp only [userPages, pgSize] at *; omega)
    rw [hphys]
    refine ⟨pte, hpte, hof.sooner fun hpres => htakes₀.mem_eq ?_⟩
    have := hheld b (by omega)
    rw [PageDir.pte, hpte, Option.getD_some] at this
    exact this hpres
  · rw [hlru]
    exact hcopied.ring
  · have h1 := hcopied.length
    have h2 := hdir.length
    rw [hphys]
    dsimp only at h1
    omega

/-- Where the parent reaches a frame without a fault the child reaches one with the same bytes, and it faults where
the parent does. -/
theorem Heir.userFrame (h : Heir p np pd L E s s') (hpd : (s.ptable p).pgdir = some pd) (ha : a < (s.ptable p).sz) :
    (∃ f g, userFrame p a false s = some f ∧ userFrame np a false s' = some g ∧ s'.phys.mem g = s.phys.mem f) ∨
      userFrame p a false s = none ∧ userFrame np a false s' = none := by
  obtain ⟨d, hd, hpages⟩ := h.pages
  obtain ⟨pte, hpte, hof⟩ := hpages a ha
  unfold DemandPaging.userFrame
  rw [hpd, hd]
  simp only [Option.bind_eq_bind, Option.bind_some, hpte]
  cases hof with
  | absent pte' hp hb hp' =>
    right
    simp [hb, hp, hp']
  | page f hp hb hm hf =>
    by_cases hu : pte.user = true
    · left
      exact ⟨pte.frame, f, by simp [hp, hu], by simp [hb, hu], hm⟩
    · right
      simp [hb, hu]

/-- A slot of the list is counted for the child too; the rest of it is as it was. -/
theorem Swap.counted_slot (sw : Swap) (L : List SlotIdx) (i : SlotIdx) :
    ∃ n, (sw.counted L).frames i = { sw.frames i with count := n } := by
  rw [Swap.counted_frames]
  split
  · exact ⟨_, rfl⟩
  · exact ⟨_, rfl⟩

theorem slotOf_counted (sw : Swap) (L K : List SlotIdx) (v : Nat) : slotOf (sw.counted L) K v = slotOf sw K v := by
  unfold slotOf
  congr 1
  funext i
  obtain ⟨n, hn⟩ := sw.counted_slot L i
  rw [hn]

theorem Heir.bytes {pg : Page} (h : Heir p np pd L E s s') (hpd : (s.ptable p).pgdir = some pd) (ha : a < (s.ptable p).sz)
    (hb : PageBytes p L a pg s) : PageBytes np L a pg s' := by
  cases hb with
  | present f hf hm =>
    rcases h.userFrame hpd ha with ⟨f', g, hf', hg, hmem⟩ | ⟨hn, -⟩
    · obtain rfl := Option.some.inj (hf.symm.trans hf')
      exact .present g hg (hmem.trans hm)
    · rw [hn] at hf
      cases hf
  | swapped y hf hy hd =>
    rcases h.userFrame hpd ha with ⟨f', g, hf', -⟩ | ⟨-, hn⟩
    · rw [hf'] at hf
      cases hf
    · obtain ⟨n, hn'⟩ := s.swap.counted_slot L y
      refine .swapped y hn ?_ ?_
      · rw [h.forked.swap, slotOf_counted, hy]
      · rw [h.forked.disk, h.forked.swap, hn', ← hd]

theorem Heir.canLoad (h : Heir p np pd L E s s') (hL : SwapList s.swap (s.ptable p).swapList L) (hlk : s.swap.lk = false)
    (hroom : E.length + userPages (s.ptable p) < maxFrameLru)
    (hfree : 66 + 2 * userPages (s.ptable p) < s.phys.freelist.length) : CanLoad np L s' where
  list := by
    obtain ⟨d, f, hchild⟩ := h.forked.child
    rw [h.forked.swap, hchild]
    refine hL.congr fun i _ => ?_
    obtain ⟨n, hn⟩ := s.swap.counted_slot L i
    rw [hn]
  unlocked := by
    rw [h.forked.swap]
    exact hlk
  ring := by
    obtain ⟨E', hq, hlen⟩ := h.ring
    refine ⟨E ++ E', hq, ?_⟩
    rw [List.length_append]
    omega
  page := by
    intro hnil
    have hlen := h.length
    rw [hnil, List.length_nil] at hlen
    omega

/-! ## The first read -/

/-- A read of a page that is not loaded, of a segment at address 0 in the file: the handler fills it from there. -/
theorem userLoad_fills {h : ProgHdr} (huf : userFrame p a false s = none) (hno : NoSlot s p a) (hpd : (s.ptable p).pgdir = some pd)
    (hpte : pd.pte? a ≠ none) (hfree : s.phys.freelist ≠ []) (hok : h.Ok) (hv : h.vaddr = 0)
    (hfile : h.InFile (s.fs.file (s.ptable p).ip)) (hph : (s.ptable p).ph = h.info) (ha : a < h.memsz) :
    ∃ b t, userLoad p a s = .ok (b, t) ∧ h.byte? (s.fs.file (s.ptable p).ip) a = some b := by
  have hfits := hok.fits
  have hlt : pgRoundDown a < h.memsz := lt_of_le_of_lt (pgRoundDown_le a) ha
  obtain ⟨f, fl, hfl⟩ := List.exists_cons_of_ne_nil hfree
  have hentry : (pd.setPte (pgRoundDown a) ⟨⟨true, true, true⟩, f⟩).pte? (pgRoundDown a) = some ⟨⟨true, true, true⟩, f⟩ := by
    refine pte?_setPte_same ?_
    rw [Ne, ← pte?_eq_none, pte?_page (pgRoundDown_page a)]
    exact hpte
  obtain ⟨pg, hfill, -⟩ := fillPage_origin (m := { s.phys with freelist := fl }) hok hv hfile (pgRoundDown_mod a) hlt hentry rfl
  obtain ⟨pg', hfill', hbyte⟩ := fillPage_origin (m := { s.phys with freelist := fl }.setPage f pg) hok hv hfile
    (pgRoundDown_mod a) hlt hentry rfl
  rw [Phys.setPage_setPage] at hfill'
  have hflt := pgfltHandler_fill (by omega) hno hpd hpte hfl
  simp only [hph, hfill, hfill', ok_bind, pure_ok] at hflt
  obtain ⟨t, hflt, hdir, hmem⟩ : ∃ t, pgfltHandler p a s = .ok t ∧
      (t.ptable p).pgdir = some (pd.setPte (pgRoundDown a) ⟨⟨true, true, true⟩, f⟩) ∧ t.phys.mem f = pg' :=
    ⟨_, hflt, by rw [Kernel.own_self], Phys.setPage_self _ f pg'⟩
  have huf' : userFrame p a false t = some f := by
    unfold userFrame
    rw [hdir]
    simp only [Option.bind_eq_bind, Option.bind_some]
    rw [← pte?_page (pgRoundDown_page a), hentry]
    rfl
  have hoff : pgRoundDown a + (pgOffset a).val = a := by
    simp only [pgRoundDown, pgOffset, pgSize]
    omega
  have hbyte := hbyte (pgOffset a) (by rw [hoff]; exact ha)
  rw [hoff] at hbyte
  refine ⟨pg' (pgOffset a), t, ?_, hbyte⟩
  unfold userLoad touch
  rw [huf]
  dsimp only
  rw [hflt, ok_bind, huf']
  simp only [ok_bind, pure_ok, hmem]

/-- The page at the address belongs to a segment at address 0, and the entry of the child has the segment and the
inode of the parent. -/
structure SameSegment (p np : ProcIdx) (a : Nat) (s : Kernel) : Prop where
  ph : (s.ptable np).ph = (s.ptable p).ph
  ip : (s.ptable np).ip = (s.ptable p).ip
  segment : ∃ h : ProgHdr, h.Ok ∧ h.vaddr = 0 ∧ h.InFile (s.fs.file (s.ptable p).ip) ∧ (s.ptable p).ph = h.info ∧ a < h.memsz

/-- The parent has the page, in memory or in a slot, or the child would load it as the parent would. -/
def Carried (p np : ProcIdx) (L : List SlotIdx) (a : Nat) (s : Kernel) : Prop :=
  userFrame p a false s ≠ none ∨ slotOf s.swap L (pgRoundDown a) ≠ none ∨ SameSegment p np a s

theorem noSlot_of_slotOf (hL : SwapList s.swap (s.ptable p).swapList L) (hlk : s.swap.lk = false)
    (h : slotOf s.swap L (pgRoundDown a) = none) : NoSlot s p a := by
  have hfind : (L.find? fun i => (s.swap.frames i).vaddr = pgRoundDown a) = none := h
  rw [NoSlot, swapCheck_eq hL hlk, hfind]
  rfl

theorem recycledFile_size : 92 ≤ maxFileBytes := by decide

/-- A machine whose other entries of the process table were last used for a program in the file `n`; the process runs
file 1 and has not touched it. Every byte of a file is its number. -/
def recycledKernel (n : Nat) : Kernel :=
  { smallKernel with
    fs := ⟨fun _ => none, fun ip => ⟨92, fun _ => ip.inum.toUInt8, recycledFile_size⟩⟩
    ptable := fun i => { smallKernel.ptable i with ph := ⟨8, 16, 0, 84⟩, ip := ⟨1, if i = 0 then 1 else n⟩ } }

theorem smallDir_covers {b : Nat} (hb : b < 2 * pgSize) : smallDir.pte? b ≠ none := by
  have hidx : pdx b = 0 := by
    apply Fin.ext
    simp only [pdx, pgSize] at hb ⊢
    show b / 2 ^ 22 % 1024 = 0
    omega
  rw [Ne, pte?_eq_none, hidx]
  decide

theorem smallDir_absent (b : Nat) : (smallDir.pte b).present = false := by
  rw [PageDir.pte, PageDir.pte?, smallDir]
  dsimp only
  split <;> rfl

section Recycled

variable (n : Nat)

theorem recycledKernel_find : Fin.find? (fun i => ((recycledKernel n).ptable i).state = .unused) = some 1 := by
  rw [Fin.find?_eq_some_iff]
  refine ⟨by simp [recycledKernel, smallKernel], fun j hj => ?_⟩
  obtain rfl : j = 0 := by
    apply Fin.ext
    exact Nat.lt_one_iff.1 hj
  simp [recycledKernel, smallKernel, smallProc]

theorem recycledKernel_fork : ∃ s', fork 0 (recycledKernel n) = .ok (2, s') := by
  have hpages : userPages ((recycledKernel n).ptable 0) = 2 := by
    show (2 * pgSize + pgSize - 1) / pgSize = 2
    decide
  have hlen : (recycledKernel n).phys.freelist.length = 200 := List.length_range'
  obtain ⟨s', E, hfork, -⟩ := fork_progress (E := []) (L := []) (recycledKernel_find n) (by decide)
    (show ((recycledKernel n).ptable 0).pgdir = some smallDir from rfl) (show 2 * pgSize ≤ kernBase by decide)
    (fun b hb => smallDir_covers hb) lruInit_queue (by rw [hpages]; decide) (by rw [hpages, hlen]; decide) rfl
  exact ⟨s', hfork⟩

/-- The one segment of the programs, of eight bytes at address 0. -/
def recycledHdr : ProgHdr := ⟨elfProgLoad, 84, 0, 8, 16⟩

theorem recycledHdr_ok : recycledHdr.Ok := ⟨by decide, by decide, by decide⟩

theorem recycledHdr_inFile (ip : InodeInfo) : recycledHdr.InFile ((recycledKernel n).fs.file ip) := .inr (by simp [recycledHdr, recycledKernel])

theorem recycledHdr_byte (ip : InodeInfo) : recycledHdr.byte? ((recycledKernel n).fs.file ip) 0 = some ip.inum.toUInt8 := rfl

theorem recycledKernel_absent : userFrame 0 0 false (recycledKernel n) = none := by
  show userFrame 0 0 false smallKernel = none
  decide

theorem recycledKernel_parent : ∃ t, userLoad 0 0 (recycledKernel n) = .ok (1, t) := by
  obtain ⟨b, t, ht, hb⟩ := userLoad_fills (recycledKernel_absent n) (noSlot_of_slotOf (L := []) rfl rfl rfl)
    (show ((recycledKernel n).ptable 0).pgdir = some smallDir from rfl) (smallDir_covers (by decide)) (by simp [recycledKernel, smallKernel])
    recycledHdr_ok rfl (recycledHdr_inFile n _) rfl (by decide)
  rw [recycledHdr_byte] at hb
  obtain rfl : 1 = b := Option.some.inj hb
  exact ⟨t, ht⟩

end Recycled

end DemandPaging
