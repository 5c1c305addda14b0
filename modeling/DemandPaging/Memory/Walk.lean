/-
`deallocuvm` against a walk over every page: the jump to the next page directory entry skips only
pages that have no entry.
-/
import DemandPaging.Kernel.State
import DemandPaging.Memory.Frames

namespace DemandPaging

/-! ## The walk -/

/-- What `deallocuvm` is for: `n` pages from `a` on, each of them looked at. -/
def walkPages : Nat → Nat → PageDir → Phys → Except Stuck (PageDir × Phys)
  | 0, _, pd, m => .ok (pd, m)
  | n + 1, a, pd, m =>
    if (pd.pte a).present then do
      let m ← kfree (pd.pte a).frame m
      walkPages n (a + pgSize) (pd.setPte a Pte.zero) m
    else walkPages n (a + pgSize) pd m

section Walk

variable {pd : PageDir} {m : Phys} {a hi : Nat}

/-- Pages without a table change nothing. -/
theorem walkPages_skip : ∀ (k : Nat) {n a : Nat}, (∀ b, a ≤ b → b < a + k * pgSize → pd.pte? b = none) →
    walkPages (k + n) a pd m = walkPages n (a + k * pgSize) pd m
  | 0, n, a, _ => by simp
  | k + 1, n, a, h => by
    have ha : (pd.pte a).present = false := by
      rw [PageDir.pte, h a le_rfl (by simp only [pgSize]; omega)]
      rfl
    rw [show k + 1 + n = (k + n) + 1 by omega, walkPages, if_neg (by simp [ha]), walkPages_skip k (n := n) (a := a + pgSize)
      fun b h1 h2 => h b (by omega) (by simp only [pgSize] at *; omega)]
    congr 1
    ring

theorem kfree_zero (m : Phys) : kfree 0 m = .error (.panic "kfree") := by
  have h1 := m.layout.link_lt
  have h2 := m.layout.data_le
  rw [kfree, if_pos]
  left
  simp only [kernLink, kernBase, extMem] at *
  omega

/-- The loop of `deallocuvm` is the walk over the pages that are left. -/
theorem deallocuvmLoop_walk (hhi : hi ≤ kernBase) : ∀ (fuel n a : Nat) (pd : PageDir) (m : Phys), a % pgSize = 0 →
    hi ≤ a + n * pgSize → a + n * pgSize < hi + pgSize → n ≤ fuel →
    deallocuvmLoop hi (fuel + 1) a pd m = walkPages n a pd m
  | fuel, 0, a, pd, m, _, hlo, _, _ => by rw [deallocuvmLoop, if_neg (by omega), walkPages]
  | 0, n + 1, _, _, _, _, _, _, hfuel => absurd hfuel (by omega)
  | fuel + 1, n + 1, a, pd, m, hal, hlo, hup, hfuel => by
    have hlt : a < hi := by simp only [pgSize] at *; omega
    have hnext : (a + pgSize) % wordSize = a + pgSize := Nat.mod_eq_of_lt (by simp only [pgSize, wordSize, kernBase] at *; omega)
    have hstep : ∀ pd m, deallocuvmLoop hi (fuel + 1) (a + pgSize) pd m = walkPages n (a + pgSize) pd m := fun pd m =>
      deallocuvmLoop_walk hhi fuel n (a + pgSize) pd m (by simp only [pgSize] at *; omega) (by simp only [pgSize] at *; omega)
        (by simp only [pgSize] at *; omega) (by omega)
    rw [deallocuvmLoop, if_pos hlt]
    cases hpte : pd.pte? a with
    | none =>
      dsimp only
      have hjump : (a / 2 ^ 22 + 1) * 2 ^ 22 % wordSize = (a / 2 ^ 22 + 1) * 2 ^ 22 :=
        Nat.mod_eq_of_lt (by simp only [wordSize, kernBase] at *; omega)
      have hnone : ∀ b, a ≤ b → b < (a / 2 ^ 22 + 1) * 2 ^ 22 → pd.pte? b = none := by
        intro b h1 h2
        rw [pte?_eq_none] at hpte ⊢
        have hidx : pdx b = pdx a := by
          simp only [pdx, Fin.mk.injEq]
          omega
        rw [hidx, hpte]
      obtain ⟨k, hk⟩ : ∃ k, (a / 2 ^ 22 + 1) * 2 ^ 22 = a + k * pgSize :=
        ⟨((a / 2 ^ 22 + 1) * 2 ^ 22 - a) / pgSize, by simp only [pgSize] at *; omega⟩
      have hkpos : 0 < k := by simp only [pgSize] at *; omega
      rw [hjump]
      rw [hk] at hnone ⊢
      by_cases hkn : k ≤ n + 1
      · obtain ⟨j, hj⟩ := Nat.exists_eq_add_of_le hkn
        rw [hj, walkPages_skip k hnone]
        refine deallocuvmLoop_walk hhi fuel j (a + k * pgSize) pd m ?_ ?_ ?_ (by omega)
        · simp only [pgSize] at *; omega
        · rw [hj, Nat.add_mul] at hlo; omega
        · rw [hj, Nat.add_mul] at hup; omega
      · -- the jump goes past the end
        have hle : (n + 1) * pgSize ≤ k * pgSize := Nat.mul_le_mul_right _ (by omega)
        rw [deallocuvmLoop, if_neg (by omega), walkPages_skip (n + 1) (n := 0) fun b h1 h2 =>
          hnone b h1 (lt_of_lt_of_le h2 (Nat.add_le_add_left hle a)), walkPages]
    | some pte =>
      have hp : pd.pte a = pte := by rw [PageDir.pte, hpte]; rfl
      rw [walkPages, hp, hnext]
      dsimp only
      split_ifs with hpres hz
      · rw [hz, kfree_zero]
        rfl
      · exact bind_congr fun m => hstep _ m
      · exact hstep pd m

end Walk

/-! ## What is freed -/

/-- The frames of the present entries among `n` pages. -/
def presentFrames (pd : PageDir) : Nat → Nat → List Nat
  | 0, _ => []
  | n + 1, a => if (pd.pte a).present then (pd.pte a).frame :: presentFrames pd n (a + pgSize) else presentFrames pd n (a + pgSize)

section Freed

variable {pd : PageDir} {m : Phys} {a f : Nat}

theorem mem_presentFrames : ∀ {n a : Nat}, f ∈ presentFrames pd n a ↔
    ∃ k < n, (pd.pte (a + k * pgSize)).present = true ∧ (pd.pte (a + k * pgSize)).frame = f
  | 0, a => by simp [presentFrames]
  | n + 1, a => by
    have hrest : f ∈ presentFrames pd n (a + pgSize) ↔
        ∃ k < n, (pd.pte (a + (k + 1) * pgSize)).present = true ∧ (pd.pte (a + (k + 1) * pgSize)).frame = f := by
      rw [mem_presentFrames]
      simp only [show ∀ k, a + pgSize + k * pgSize = a + (k + 1) * pgSize from fun k => by ring]
    rw [presentFrames]
    constructor
    · intro h
      by_cases hp : (pd.pte a).present
      · rw [if_pos hp, List.mem_cons, hrest] at h
        rcases h with rfl | ⟨k, hk, h⟩
        · exact ⟨0, by omega, by simpa using hp, by simp⟩
        · exact ⟨k + 1, by omega, h⟩
      · rw [if_neg hp, hrest] at h
        obtain ⟨k, hk, h⟩ := h
        exact ⟨k + 1, by omega, h⟩
    · rintro ⟨k, hk, hp, hf⟩
      cases k with
      | zero =>
        rw [Nat.zero_mul, Nat.add_zero] at hp hf
        rw [if_pos hp, ← hf]
        exact List.mem_cons_self
      | succ k =>
        have hm := hrest.2 ⟨k, by omega, hp, hf⟩
        split_ifs
        · exact List.mem_cons_of_mem _ hm
        · exact hm

theorem presentFrames_congr {pd' : PageDir} : ∀ {n a : Nat}, (∀ k < n, pd'.pte (a + k * pgSize) = pd.pte (a + k * pgSize)) →
    presentFrames pd' n a = presentFrames pd n a
  | 0, a, _ => rfl
  | n + 1, a, h => by
    have h0 : pd'.pte a = pd.pte a := by simpa using h 0 (by omega)
    rw [presentFrames, presentFrames, h0, presentFrames_congr fun k hk => ?_]
    rw [show a + pgSize + k * pgSize = a + (k + 1) * pgSize by ring]
    exact h (k + 1) (by omega)

/-- Entries with frames of their own give each frame once. -/
theorem presentFrames_nodup : ∀ {n a : Nat}, (∀ j < n, ∀ k < n, (pd.pte (a + j * pgSize)).present = true →
    (pd.pte (a + k * pgSize)).present = true → (pd.pte (a + j * pgSize)).frame = (pd.pte (a + k * pgSize)).frame → j = k) →
    (presentFrames pd n a).Nodup
  | 0, a, _ => List.nodup_nil
  | n + 1, a, h => by
    have hrest : (presentFrames pd n (a + pgSize)).Nodup := by
      refine presentFrames_nodup fun j hj k hk h1 h2 h3 => ?_
      simp only [show ∀ k, a + pgSize + k * pgSize = a + (k + 1) * pgSize from fun k => by ring] at h1 h2 h3
      have := h (j + 1) (by omega) (k + 1) (by omega) h1 h2 h3
      omega
    rw [presentFrames]
    split_ifs with hp
    · refine List.nodup_cons.2 ⟨fun hm => ?_, hrest⟩
      obtain ⟨k, hk, hpk, hf⟩ := mem_presentFrames.1 hm
      rw [show a + pgSize + k * pgSize = a + (k + 1) * pgSize by ring] at hpk hf
      have := h 0 (by omega) (k + 1) (by omega) (by simpa using hp) hpk (by simpa using hf.symm)
      omega
    · exact hrest

theorem kfree_freelist {m' : Phys} (h : kfree f m = .ok m') : m'.layout = m.layout ∧ m'.freelist = f :: m.freelist := by
  unfold kfree at h
  split at h
  · cases h
  · cases h
    exact ⟨rfl, rfl⟩

/-- The walk frees the present frames of its pages and takes their entries away. -/
theorem walkPages_spec : ∀ (n : Nat) {a : Nat} (pd : PageDir) (m : Phys), a % pgSize = 0 → a + n * pgSize ≤ wordSize →
    (∀ k < n, (pd.pte (a + k * pgSize)).present = true → m.layout.Holds (pd.pte (a + k * pgSize)).frame) →
    ∃ pd' m', walkPages n a pd m = .ok (pd', m') ∧ m'.freelist = (presentFrames pd n a).reverse ++ m.freelist ∧
      ∀ b < wordSize, pd'.pte? b = if a ≤ b ∧ b < a + n * pgSize ∧ (pd.pte b).present = true then some Pte.zero else pd.pte? b
  | 0, a, pd, m, _, _, _ => by
    refine ⟨pd, m, rfl, rfl, fun b hb => ?_⟩
    rw [if_neg (by omega)]
  | n + 1, a, pd, m, hal, hw, hpd => by
    have ha : a < wordSize := by simp only [pgSize] at *; omega
    have hend : a + pgSize + n * pgSize = a + (n + 1) * pgSize := by ring
    have hpage : ∀ b, b < wordSize → (pdx b = pdx a ∧ ptx b = ptx a ↔ a ≤ b ∧ b < a + pgSize) := by
      intro b hb
      rw [index_eq_iff hb ha]
      simp only [pgSize] at *
      omega
    have hsame : ∀ b, a ≤ b ∧ b < a + pgSize → pd.pte b = pd.pte a := by
      intro b hb
      rw [PageDir.pte, PageDir.pte, pte?_page (b := a) (by simp only [pgSize] at *; omega)]
    rw [walkPages, presentFrames]
    by_cases hp : (pd.pte a).present
    · obtain ⟨m₁, hfree⟩ := kfree_holds.2 (by simpa using hpd 0 (by omega) (by simpa using hp))
      obtain ⟨hlay, hcons⟩ := kfree_freelist hfree
      obtain ⟨old, hold⟩ : ∃ old, pd.pte? a = some old := by
        refine Option.ne_none_iff_exists'.1 fun hno => ?_
        rw [PageDir.pte, hno] at hp
        cases hp
      have hset : ∀ b, b < wordSize → ¬(a ≤ b ∧ b < a + pgSize) → (pd.setPte a Pte.zero).pte? b = pd.pte? b :=
        fun b hb hne => pte?_setPte_other (by rw [hpage b hb]; exact hne)
      have hlater : ∀ k < n, (pd.setPte a Pte.zero).pte (a + pgSize + k * pgSize) = pd.pte (a + pgSize + k * pgSize) := by
        intro k hk
        rw [PageDir.pte, hset _ _ (by omega), PageDir.pte]
        exact lt_of_lt_of_le (Nat.add_lt_add_left (Nat.mul_lt_mul_of_pos_right hk (by decide)) _) (hend.le.trans hw)
      obtain ⟨pd', m', hwalk, hfl, hpte⟩ := walkPages_spec n (a := a + pgSize) (pd.setPte a Pte.zero) m₁
        (by simp only [pgSize] at *; omega) (by omega) fun k hk => by
          rw [hlater k hk, hlay, show a + pgSize + k * pgSize = a + (k + 1) * pgSize by ring]
          exact hpd (k + 1) (by omega)
      rw [if_pos hp, if_pos hp, hfree, ok_bind]
      refine ⟨pd', m', hwalk, ?_, fun b hb => ?_⟩
      · rw [hfl, hcons, presentFrames_congr hlater]
        simp
      · rw [hpte b hb, hend]
        by_cases hb' : a ≤ b ∧ b < a + pgSize
        · rw [if_neg (by omega), if_pos ⟨hb'.1, by simp only [pgSize] at *; omega, by rw [hsame b hb']; exact hp⟩,
            pte?_page (b := a) (by simp only [pgSize] at *; omega)]
          exact pte?_setPte_same (by rw [Ne, ← pte?_eq_none, hold]; simp)
        · rw [PageDir.pte, hset b hb hb', ← PageDir.pte]
          exact if_congr (and_congr_left fun _ => by omega) rfl rfl
    · obtain ⟨pd', m', hwalk, hfl, hpte⟩ := walkPages_spec n (a := a + pgSize) pd m
        (by simp only [pgSize] at *; omega) (by omega) fun k hk => by
          rw [show a + pgSize + k * pgSize = a + (k + 1) * pgSize by ring]
          exact hpd (k + 1) (by omega)
      rw [if_neg hp, if_neg hp]
      refine ⟨pd', m', hwalk, hfl, fun b hb => ?_⟩
      rw [hpte b hb, hend]
      by_cases hb' : a ≤ b ∧ b < a + pgSize
      · -- the page itself is not present
        have he : pd.pte b = pd.pte a := hsame b hb'
        rw [if_neg (by omega), if_neg (by rw [he]; exact fun h => hp h.2.2)]
      · exact if_congr (and_congr_left fun _ => by omega) rfl rfl

end Freed

/-! ## `deallocuvm` -/

/-- The page of an address lies in the range that `deallocuvm` goes over. -/
def InRange (newsz oldsz b : Nat) : Prop := pgRoundUp newsz ≤ pgRoundDown b ∧ pgRoundDown b < oldsz

instance (newsz oldsz b : Nat) : Decidable (InRange newsz oldsz b) := inferInstanceAs (Decidable (_ ∧ _))

/-- `deallocuvm` returns `newsz`, gives each frame of a present entry in its range to the allocator once and no other page, makes
those entries zero and leaves the others. -/
theorem deallocuvm_frees (pd : PageDir) (m : Phys) {newsz oldsz : Nat} (hlt : newsz < oldsz) (hk : oldsz ≤ kernBase)
    (hheld : ∀ b < kernBase, (pd.pte b).present = true → m.layout.Holds (pd.pte b).frame)
    (hdist : ∀ b < kernBase, ∀ c < kernBase, (pd.pte b).present = true → (pd.pte c).present = true →
      (pd.pte b).frame = (pd.pte c).frame → b / pgSize = c / pgSize) :
    ∃ freed pd' m', deallocuvm pd oldsz newsz m = .ok (newsz, pd', m') ∧ m'.freelist = freed ++ m.freelist ∧ freed.Nodup ∧
      (∀ f, f ∈ freed ↔ ∃ b < wordSize, InRange newsz oldsz b ∧ (pd.pte b).present = true ∧ (pd.pte b).frame = f) ∧
      ∀ b < wordSize, pd'.pte? b = if InRange newsz oldsz b ∧ (pd.pte b).present = true then some Pte.zero else pd.pte? b := by
  have hmod : pgRoundUp newsz % pgSize = 0 := Nat.mul_mod_left _ _
  have hle : pgRoundUp newsz ≤ kernBase := by simp only [pgRoundUp, pgSize, wordSize, kernBase] at *; omega
  -- the number of pages of the range
  obtain ⟨n, hn, hn', hfuel⟩ : ∃ n, oldsz ≤ pgRoundUp newsz + n * pgSize ∧ pgRoundUp newsz + n * pgSize < oldsz + pgSize ∧
      n ≤ 2 ^ 20 := by
    refine ⟨(oldsz - pgRoundUp newsz + (pgSize - 1)) / pgSize, ?_⟩
    simp only [pgRoundUp, pgSize, wordSize, kernBase] at *
    omega
  have hin : ∀ b, InRange newsz oldsz b ↔ pgRoundUp newsz ≤ b ∧ b < pgRoundUp newsz + n * pgSize := by
    intro b
    simp only [InRange, pgRoundDown, pgSize] at *
    omega
  have hpage : ∀ k < n, pgRoundUp newsz + k * pgSize < kernBase := by
    intro k hkn
    have hstep : (k + 1) * pgSize ≤ n * pgSize := Nat.mul_le_mul_right _ hkn
    rw [Nat.add_mul, Nat.one_mul] at hstep
    refine Nat.lt_of_add_lt_add_right (n := pgSize) ?_
    calc pgRoundUp newsz + k * pgSize + pgSize
      _ ≤ pgRoundUp newsz + n * pgSize := by rw [Nat.add_assoc]; exact Nat.add_le_add_left hstep _
      _ < oldsz + pgSize := hn'
      _ ≤ kernBase + pgSize := Nat.add_le_add_right hk _
  obtain ⟨pd', m', hwalk, hfl, hpte⟩ := walkPages_spec n pd m hmod
    (by simp only [pgSize, wordSize, kernBase] at *; omega) fun k hk => hheld _ (hpage k hk)
  refine ⟨(presentFrames pd n (pgRoundUp newsz)).reverse, pd', m', ?_, hfl, ?_, fun f => ?_, fun b hb => ?_⟩
  · rw [deallocuvm, if_neg (by omega), deallocuvmLoop_walk hk _ n _ pd m hmod hn hn' hfuel, hwalk]
    rfl
  · refine List.nodup_reverse.2 (presentFrames_nodup fun j hj k hk' h1 h2 h3 => ?_)
    have := hdist _ (hpage j hj) _ (hpage k hk') h1 h2 h3
    simp only [pgSize] at *
    omega
  · rw [List.mem_reverse, mem_presentFrames]
    constructor
    · rintro ⟨k, hk', hp, hf⟩
      have hlt' := hpage k hk'
      refine ⟨pgRoundUp newsz + k * pgSize, hlt'.trans (by decide), (hin _).2 ⟨Nat.le_add_right _ _, ?_⟩, hp, hf⟩
      exact Nat.add_lt_add_left (Nat.mul_lt_mul_of_pos_right hk' (by decide)) _
    · rintro ⟨b, -, hb, hp, hf⟩
      obtain ⟨h1, h2⟩ := (hin b).1 hb
      have hbk : pd.pte b = pd.pte (pgRoundUp newsz + (b - pgRoundUp newsz) / pgSize * pgSize) := by
        rw [PageDir.pte, PageDir.pte, pte?_page]
        simp only [pgSize] at *
        omega
      refine ⟨(b - pgRoundUp newsz) / pgSize, ?_, by rw [← hbk]; exact hp, by rw [← hbk]; exact hf⟩
      simp only [pgSize] at *
      omega
  · rw [hpte b hb]
    exact if_congr (by rw [hin b, and_assoc]) rfl rfl

/-- Two pages, with four megabytes without a table between them. -/
def gapDir : PageDir where
  frame := 998
  tables := fun i =>
    if i = 0 then some ⟨999, fun j => if j = 1 then ⟨⟨true, true, true⟩, 1000⟩ else Pte.zero⟩
    else if i = 2 then some ⟨1002, fun j => if j = 0 then ⟨⟨true, true, true⟩, 1001⟩ else Pte.zero⟩
    else none

theorem gapDir_present {b : Nat} (h : (gapDir.pte b).present = true) :
    (pdx b = 0 ∧ ptx b = 1 ∧ (gapDir.pte b).frame = 1000) ∨ (pdx b = 2 ∧ ptx b = 0 ∧ (gapDir.pte b).frame = 1001) := by
  simp only [PageDir.pte, PageDir.pte?, gapDir] at h ⊢
  by_cases h0 : pdx b = 0
  · by_cases h1 : ptx b = 1
    · simp [h0, h1]
    · simp [h0, h1, Pte.zero] at h
  · by_cases h2 : pdx b = 2
    · by_cases h1 : ptx b = 0
      · simp [h2, h1]
      · simp [h2, h1, Pte.zero] at h
    · simp [h0, h2, Pte.zero] at h

theorem deallocuvm_frees_gap : ∃ freed pd' m', deallocuvm gapDir 0x801000 1 ⟨smallLayout, [], fun _ => zeroPage⟩ = .ok (1, pd', m') ∧
    m'.freelist = freed ++ [] ∧ freed.Nodup ∧ 1001 ∈ freed := by
  have hword : ∀ b < kernBase, b < wordSize := fun b hb => hb.trans (by decide)
  obtain ⟨freed, pd', m', hrun, hfl, hnd, hmem, -⟩ := deallocuvm_frees gapDir ⟨smallLayout, [], fun _ => zeroPage⟩
    (show 1 < 0x801000 by decide) (by decide)
    (fun b _ h => by
      rcases gapDir_present h with ⟨-, -, hf⟩ | ⟨-, -, hf⟩ <;> rw [hf] <;> decide)
    (fun b hb c hc h h' heq => by
      rw [← index_eq_iff (hword b hb) (hword c hc)]
      rcases gapDir_present h with ⟨h1, h2, hf⟩ | ⟨h1, h2, hf⟩ <;>
        rcases gapDir_present h' with ⟨h1', h2', hf'⟩ | ⟨h1', h2', hf'⟩
      · exact ⟨h1.trans h1'.symm, h2.trans h2'.symm⟩
      · rw [hf, hf'] at heq; cases heq
      · rw [hf, hf'] at heq; cases heq
      · exact ⟨h1.trans h1'.symm, h2.trans h2'.symm⟩)
  exact ⟨freed, pd', m', hrun, hfl, hnd, (hmem 1001).2 ⟨0x800000, by decide, by decide, by decide, by decide⟩⟩

end DemandPaging
