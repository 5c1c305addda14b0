/-
The CPUs and the translations they cache. A CPU may keep a translation that was present once until it
loads `cr3` again, which `switchuvm` and `switchkvm` do. `demappages_swap_out` clears an entry and loads
nothing: whether the CPU that executes the owner of the page forgets the page depends on what the owner
is doing there.
-/
import DemandPaging.Memory.Frames
import DemandPaging.Paging.Threads

namespace DemandPaging

/-! ## The machine -/

/-- The process that a CPU executes, and the translations it has cached, by page number. -/
structure Cpu where
  proc : Option ProcIdx
  tlb : Nat → Option Pte

/-- The CPU after `lcr3`. -/
def Cpu.load (proc : Option ProcIdx) : Cpu := ⟨proc, fun _ => none⟩

/-- The entry of a page that user code may use. -/
def userPte (q : ProcIdx) (n : Nat) (s : Kernel) : Option Pte := do
  let pd ← (s.ptable q).pgdir
  let pte ← pd.pte? (n * pgSize)
  if pte.present && pte.user then some pte else none

/-- The kernel, the CPUs, and what is left of the call that each process is in: nothing in user mode.
The rest is history. -/
structure Smp where
  kernel : Kernel
  cpus : CpuIdx → Cpu
  threads : ProcIdx → KThread Unit
  /-- The page that the call of a process has copied and not cleared yet. -/
  evicting : ProcIdx → Option (ProcIdx × Nat)
  /-- The page has been copied, and not been mapped since. -/
  copied : ProcIdx → Nat → Bool
  /-- The page has been cleared, and not been mapped since. -/
  evicted : ProcIdx → Nat → Bool
  /-- A page of the process that the CPU executes has been cleared since the CPU's last `lcr3`. -/
  unflushed : CpuIdx → Bool

namespace Smp

def start (s : Kernel) : Smp where
  kernel := s
  cpus := fun _ => .load none
  threads := fun _ => .done ()
  evicting := fun _ => none
  copied := fun _ _ => false
  evicted := fun _ _ => false
  unflushed := fun _ => false

variable (m : Smp)

def userMode (q : ProcIdx) : Bool :=
  match m.threads q with
  | .done _ => true
  | .step _ _ => false

/-- The CPU loads `cr3`, of a process or of the kernel. -/
def lcr3 (c : CpuIdx) (proc : Option ProcIdx) : Smp :=
  { m with cpus := Function.update m.cpus c (.load proc), unflushed := Function.update m.unflushed c false }

def cache (c : CpuIdx) (n : Nat) (pte : Option Pte) : Smp :=
  { m with cpus := Function.update m.cpus c ⟨(m.cpus c).proc, Function.update (m.cpus c).tlb n pte⟩ }

def store (f : Nat) (i : Fin pgSize) (x : UInt8) : Smp :=
  let phys := m.kernel.phys.setPage f (Function.update (m.kernel.phys.mem f) i x)
  { m with kernel := { m.kernel with phys := phys } }

end Smp

def Event.copies (q : ProcIdx) (n : Nat) : Event → Bool
  | .readVaddr q' vaddr => q' = q ∧ vaddr / pgSize = n
  | _ => false

def Event.clears (q : ProcIdx) (n : Nat) : Event → Bool
  | .demap q' vaddr => q' = q ∧ vaddr / pgSize = n
  | _ => false

def Event.flushes : Event → Bool
  | .sleep | .lcr3 => true
  | _ => false

/-- The page that a call has copied, and has to clear before it copies another. -/
def Event.pairing : Option (ProcIdx × Nat) → Event → Kernel → Option (Option (ProcIdx × Nat))
  | none, .readVaddr q vaddr, _ => some (some (q, vaddr / pgSize))
  | some _, .readVaddr _ _, _ => none
  | x, .demap q vaddr, s =>
    if (x = none ∨ x = some (q, vaddr / pgSize)) ∧ userPte q (vaddr / pgSize) s = none then some none else none
  | x, _, _ => some x

namespace Smp

variable (m : Smp)

/-- The clearing of the page concerns the CPU. -/
def concerned (e : Event) (d : CpuIdx) : Bool :=
  match e, (m.cpus d).proc with
  | .demap q vaddr, some q' =>
    q' = q ∧ ((userPte q (vaddr / pgSize) m.kernel).isSome ∨ ((m.cpus d).tlb (vaddr / pgSize)).isSome)
  | _, _ => false

/-- A step of the call of a process has shown `e` and left the kernel as `s`. -/
def observe (p : ProcIdx) (e : Event) (s : Kernel) : Smp :=
  { m with
    kernel := s
    evicting := Function.update m.evicting p ((Event.pairing (m.evicting p) e s).getD none)
    copied := fun q n => e.copies q n ||
      (m.copied q n && !((userPte q n m.kernel).isNone && (userPte q n s).isSome))
    evicted := fun q n => (m.evicted q n || e.clears q n) && (userPte q n s).isNone
    unflushed := fun d => m.unflushed d || m.concerned e d }

/-- What the CPU does after the step: a process that sleeps leaves it to `scheduler`. -/
def resume (c : CpuIdx) (p : ProcIdx) : Event → Smp
  | .sleep => m.lcr3 c none
  | .lcr3 => m.lcr3 c (some p)
  | _ => m

end Smp

inductive CpuAct
  /-- `scheduler` switches to a process. -/
  | dispatch (c : CpuIdx) (q : ProcIdx)
  /-- A timer interrupt sends the process back to `scheduler`. -/
  | yield (c : CpuIdx)
  /-- The CPU looks the page up in the page table: it caches an entry that is present, and forgets one
  that is not. -/
  | walk (c : CpuIdx) (n : Nat)
  /-- User code reads a byte, or stores one, through a translation the CPU has cached. -/
  | access (c : CpuIdx) (a : Nat) (byte : Option UInt8)
  | call (c : CpuIdx) (tm : Timing) (call : SysCall)
  /-- The next step of the call that the process is in. -/
  | kernel (c : CpuIdx)

namespace Smp

/-- The process that makes the access and the frame it reaches. -/
def translate (m : Smp) (c : CpuIdx) (a : Nat) (wr : Bool) : Option (ProcIdx × Nat) := do
  let q ← (m.cpus c).proc
  let pte ← (m.cpus c).tlb (a / pgSize)
  if m.userMode q && (!wr || pte.write) then some (q, pte.frame) else none

/-- The process can be switched to. -/
def Dispatchable (m : Smp) (c : CpuIdx) (q : ProcIdx) : Prop :=
  (m.cpus c).proc = none ∧ (∀ d, (m.cpus d).proc ≠ some q) ∧
    (m.kernel.ptable q).state ∉ [ProcState.unused, .embryo, .zombie]

instance (m : Smp) (c : CpuIdx) (q : ProcIdx) : Decidable (m.Dispatchable c q) := by
  unfold Dispatchable; infer_instance

/-- One step of one CPU. An act that is not possible in the state is none. -/
def step : CpuAct → Smp → Except Stuck Smp
  | .dispatch c q, m =>
    if m.Dispatchable c q then
      match switchuvm q m.kernel with
      | .error x => .error x
      | .ok _ => .ok (m.lcr3 c (some q))
    else .ok m
  | .yield c, m => .ok (m.lcr3 c none)
  | .walk c n, m =>
    match (m.cpus c).proc with
    | none => .ok m
    | some q => .ok (m.cache c n (userPte q n m.kernel))
  | .access c a byte, m =>
    match m.translate c a byte.isSome, byte with
    | some (_, f), some x => .ok (m.store f (pgOffset a) x)
    | _, _ => .ok m
  | .call c tm call, m =>
    if (m.cpus c).proc = some call.actor ∧ m.userMode call.actor then
      .ok { m with threads := Function.update m.threads call.actor (call.thread tm) }
    else .ok m
  | .kernel c, m =>
    match (m.cpus c).proc with
    | none => .ok m
    | some p =>
      match m.threads p with
      | .done _ => .ok m
      | .step f k =>
        match f m.kernel with
        | .error x => .error x
        | .ok (e, b, s) => .ok ({ m.observe p e s with threads := Function.update m.threads p (k b) }.resume c p e)

/-- Each step of the run is taken in a state in which it has `P`. -/
def Always (P : CpuAct → Smp → Prop) : List CpuAct → Smp → Prop
  | [], _ => True
  | a :: as, m => P a m ∧ ∀ m', step a m = .ok m' → Always P as m'

/-- Every way in which the thread can end leads through a sleep or an `lcr3`. -/
def Flushes (t : KThread Unit) : Prop :=
  t.Follows (fun done e _ => some (done || e.flushes)) (fun done _ => done = true) false

/-- An access does not use the translation of a page that has been cleared, every CPU that was concerned
has loaded `cr3` since, and a store does not go to a page that has been copied to swap. -/
def Fresh : CpuAct → Smp → Prop
  | .access c a byte, m => ∀ q f, m.translate c a byte.isSome = some (q, f) →
      m.unflushed c = false ∧ m.evicted q (a / pgSize) = false ∧
        (byte.isSome = true → m.copied q (a / pgSize) = false)
  | _, _ => True

/-- When a page is cleared, the owner is in the kernel on every CPU that it concerns and flushes before
it returns; and there is no store to a page between its copy and its clearing. -/
def Careful : CpuAct → Smp → Prop
  | .kernel c, m => ∀ p {β : Type} (f : Kernel → Except Stuck (Event × β × Kernel)) (k : β → KThread Unit) q vaddr b s,
      (m.cpus c).proc = some p → m.threads p = .step f k → f m.kernel = .ok (.demap q vaddr, b, s) →
      ∀ d, m.concerned (.demap q vaddr) d = true → Flushes (Function.update m.threads p (k b) q)
  | .access c a (some _), m => ∀ q f, m.translate c a true = some (q, f) → ∀ p, m.evicting p ≠ some (q, a / pgSize)
  | _, _ => True

/-! ## The invariant -/

/-- What holds between the history and the state in a careful run. -/
structure Settled (m : Smp) : Prop where
  single : ∀ c d q, (m.cpus c).proc = some q → (m.cpus d).proc = some q → c = d
  flush : ∀ c, m.unflushed c = true → ∃ q, (m.cpus c).proc = some q ∧ Flushes (m.threads q)
  forgotten : ∀ c q n, (m.cpus c).proc = some q → m.unflushed c = false → m.evicted q n = true → (m.cpus c).tlb n = none
  absent : ∀ q n, m.evicted q n = true → userPte q n m.kernel = none
  copied : ∀ q n, m.copied q n = true → m.evicted q n = true ∨ ∃ p, m.evicting p = some (q, n)
  paired : ∀ p, (m.threads p).Follows Event.pairing (fun x _ => x = none) (m.evicting p)

variable {m m' : Smp} {c d : CpuIdx} {p q : ProcIdx} {n a : Nat} {e : Event}

theorem start_settled (s : Kernel) : Settled (start s) where
  single := fun c d q h => by cases h
  flush := fun c h => by cases h
  forgotten := fun c q n h => by cases h
  absent := fun q n h => by cases h
  copied := fun q n h => by cases h
  paired := fun p => rfl

theorem translate_some {wr : Bool} {f : Nat} (h : m.translate c a wr = some (q, f)) :
    (m.cpus c).proc = some q ∧ m.userMode q = true ∧ (m.cpus c).tlb (a / pgSize) ≠ none := by
  simp only [translate, Option.bind_eq_bind, Option.bind_eq_some_iff] at h
  obtain ⟨q', hproc, pte, htlb, h⟩ := h
  split at h
  · next hc =>
    cases h
    exact ⟨hproc, (Bool.and_eq_true_iff.1 hc).1, by rw [htlb]; simp⟩
  · cases h

/-- In user mode nothing is left that could flush. -/
theorem not_flushes (h : m.userMode q = true) : ¬Flushes (m.threads q) := by
  unfold userMode at h
  intro hfl
  cases ht : m.threads q with
  | done x => rw [ht] at hfl; cases hfl
  | step f k => rw [ht] at h; cases h

/-- The property holds of every step that is taken in a settled state. -/
theorem Settled.fresh (hm : Settled m) {act : CpuAct} (h : Careful act m) : Fresh act m := by
  cases act with
  | access c a byte =>
    intro q f htr
    obtain ⟨hproc, huser, htlb⟩ := translate_some htr
    have hflushed : m.unflushed c = false := by
      by_contra hne
      obtain ⟨q', hq', hfl⟩ := hm.flush c (by simpa using hne)
      rw [hproc] at hq'
      cases hq'
      exact not_flushes huser hfl
    have hhere : m.evicted q (a / pgSize) = false := by
      by_contra hne
      exact htlb (hm.forgotten c q _ hproc hflushed (by simpa using hne))
    refine ⟨hflushed, hhere, fun hwr => ?_⟩
    cases byte with
    | none => cases hwr
    | some x =>
      by_contra hne
      rcases hm.copied q _ (by simpa using hne) with hev | ⟨p, hp⟩
      · rw [hhere] at hev; cases hev
      · exact h q f htr p hp
  | _ => trivial

/-! ## Steps -/

section Resume

variable (m c p)

@[simp] theorem resume_kernel : (m.resume c p e).kernel = m.kernel := by cases e <;> rfl
@[simp] theorem resume_threads : (m.resume c p e).threads = m.threads := by cases e <;> rfl
@[simp] theorem resume_evicting : (m.resume c p e).evicting = m.evicting := by cases e <;> rfl
@[simp] theorem resume_copied : (m.resume c p e).copied = m.copied := by cases e <;> rfl
@[simp] theorem resume_evicted : (m.resume c p e).evicted = m.evicted := by cases e <;> rfl

theorem resume_stay (h : e.flushes = false) : m.resume c p e = m := by
  cases e <;> first | rfl | cases h

theorem resume_other (h : d ≠ c) : (m.resume c p e).cpus d = m.cpus d ∧ (m.resume c p e).unflushed d = m.unflushed d := by
  cases e <;> simp [resume, lcr3, Function.update_of_ne h]

theorem resume_flush (h : e.flushes = true) : (m.resume c p e).unflushed c = false ∧
    (∀ n, ((m.resume c p e).cpus c).tlb n = none) ∧ ∀ q, ((m.resume c p e).cpus c).proc = some q → q = p := by
  cases e with
  | sleep => simp [resume, lcr3, Cpu.load]
  | lcr3 => simp [resume, lcr3, Cpu.load]
  | _ => cases h

end Resume

/-- A step keeps the invariant that loads `cr3` for a process no other CPU executes. -/
theorem Settled.lcr3 (hm : Settled m) {proc : Option ProcIdx} (h : ∀ q d, proc = some q → (m.cpus d).proc ≠ some q) :
    Settled (m.lcr3 c proc) where
  single := by
    intro c₁ c₂ q h₁ h₂
    simp only [Smp.lcr3, Function.update_apply] at h₁ h₂
    split at h₁ <;> split at h₂
    · next e₁ e₂ => rw [e₁, e₂]
    · exact absurd h₂ (h q c₂ h₁)
    · exact absurd h₁ (h q c₁ h₂)
    · exact hm.single c₁ c₂ q h₁ h₂
  flush := by
    intro d hd
    by_cases hdc : d = c
    · subst hdc
      simp [Smp.lcr3] at hd
    · simp only [Smp.lcr3, Function.update_of_ne hdc] at hd ⊢
      exact hm.flush d hd
  forgotten := by
    intro d q n hproc hfl hev
    by_cases hdc : d = c
    · subst hdc
      simp [Smp.lcr3, Cpu.load]
    · simp only [Smp.lcr3, Function.update_of_ne hdc] at hproc hfl ⊢
      exact hm.forgotten d q n hproc hfl hev
  absent := hm.absent
  copied := hm.copied
  paired := hm.paired

/-! ### The next step of a call -/

/-- What a step of the call of `p` on `c` leaves, with `t` the rest of the call and `x` the page it still
has to clear. -/
structure Advance (m : Smp) (c : CpuIdx) (p : ProcIdx) (e : Event) (t : KThread Unit) (x : Option (ProcIdx × Nat))
    (m' : Smp) : Prop where
  cpu : ∀ d, (m'.cpus d = m.cpus d ∧ m'.unflushed d = (m.unflushed d || m.concerned e d) ∧ (d = c → e.flushes = false)) ∨
    d = c ∧ m'.unflushed d = false ∧ (∀ n, (m'.cpus d).tlb n = none) ∧ ∀ q, (m'.cpus d).proc = some q → q = p
  threads : m'.threads = Function.update m.threads p t
  evicting : m'.evicting = Function.update m.evicting p x
  evicted : ∀ q n, m'.evicted q n = ((m.evicted q n || e.clears q n) && (userPte q n m'.kernel).isNone)
  copied : ∀ q n, m'.copied q n = (e.copies q n ||
    (m.copied q n && !((userPte q n m.kernel).isNone && (userPte q n m'.kernel).isSome)))

variable {t : KThread Unit} {x : Option (ProcIdx × Nat)} {s : Kernel}

theorem resume_advance (hx : Event.pairing (m.evicting p) e s = some x) :
    Advance m c p e t x ({ m.observe p e s with threads := Function.update m.threads p t }.resume c p e) := by
  constructor
  · intro d
    by_cases hdc : d = c
    · subst hdc
      cases hfl : e.flushes with
      | true => exact .inr ⟨rfl, resume_flush _ d p hfl⟩
      | false =>
        rw [resume_stay _ d p hfl]
        exact .inl ⟨rfl, rfl, fun _ => rfl⟩
    · obtain ⟨h₁, h₂⟩ := resume_other { m.observe p e s with threads := Function.update m.threads p t } c p (e := e) hdc
      rw [h₁, h₂]
      exact .inl ⟨rfl, rfl, fun h => absurd h hdc⟩
  · simp
  · simp [observe, hx]
  · intro q n
    simp [observe]
  · intro q n
    simp [observe]

namespace Advance

theorem proc (h : Advance m c p e t x m') (hproc : (m.cpus c).proc = some p) (hq : (m'.cpus d).proc = some q) :
    (m.cpus d).proc = some q := by
  rcases h.cpu d with ⟨h₁, -, -⟩ | ⟨rfl, -, -, hown⟩
  · rwa [h₁] at hq
  · rw [hown q hq]
    exact hproc

/-- A CPU that is not flushed executes a process that will flush it: the one it had to, or the owner of
the page that has been cleared. -/
theorem flush (h : Advance m c p e t x m') (hm : Settled m) (hproc : (m.cpus c).proc = some p)
    (hrest : Flushes (m.threads p) → e.flushes = false → Flushes t)
    (hcare : ∀ q vaddr, e = .demap q vaddr → ∀ d, m.concerned e d = true → Flushes (Function.update m.threads p t q))
    (hd : m'.unflushed d = true) : ∃ q, (m'.cpus d).proc = some q ∧ Flushes (m'.threads q) := by
  rcases h.cpu d with ⟨h₁, h₂, h₃⟩ | ⟨-, hno, -, -⟩
  · rw [h₂, Bool.or_eq_true] at hd
    rw [h₁, h.threads]
    rcases hd with hd | hd
    · obtain ⟨q, hq, hfl⟩ := hm.flush d hd
      refine ⟨q, hq, ?_⟩
      by_cases hqp : q = p
      · subst hqp
        rw [Function.update_self]
        exact hrest hfl (h₃ (hm.single d c q hq hproc))
      · rwa [Function.update_of_ne hqp]
    · cases e with
      | demap q vaddr =>
        cases hq : (m.cpus d).proc with
        | none => simp [concerned, hq] at hd
        | some q' =>
          have hqq : q' = q := by
            simp only [concerned, hq, decide_eq_true_eq] at hd
            exact hd.1
          exact ⟨q', rfl, hqq ▸ hcare q vaddr rfl d hd⟩
      | _ => simp [concerned] at hd
  · rw [hno] at hd
    cases hd

theorem forgotten (h : Advance m c p e t x m') (hm : Settled m) (hq : (m'.cpus d).proc = some q)
    (hd : m'.unflushed d = false) (hev : m'.evicted q n = true) : (m'.cpus d).tlb n = none := by
  rcases h.cpu d with ⟨h₁, h₂, -⟩ | ⟨-, -, htlb, -⟩
  · rw [h₁] at hq ⊢
    rw [h₂, Bool.or_eq_false_iff] at hd
    rw [h.evicted, Bool.and_eq_true, Bool.or_eq_true] at hev
    rcases hev.1 with hev | hcl
    · exact hm.forgotten d q n hq hd.1 hev
    · cases e with
      | demap q' vaddr =>
        simp only [Event.clears, decide_eq_true_eq] at hcl
        have hnot := hd.2
        simp only [concerned, hq, decide_eq_false_iff_not, not_and, not_or] at hnot
        rw [← hcl.2]
        simpa using (hnot hcl.1.symm).2
      | _ => cases hcl
  · exact htlb n

theorem absent (h : Advance m c p e t x m') (hev : m'.evicted q n = true) : userPte q n m'.kernel = none := by
  rw [h.evicted, Bool.and_eq_true] at hev
  simpa using hev.2

/-- A page that has been copied is about to be cleared, or it has been and was not mapped since. -/
theorem copied_cases (h : Advance m c p e t x m') (hm : Settled m) (hx : Event.pairing (m.evicting p) e m'.kernel = some x)
    (hc : m'.copied q n = true) : m'.evicted q n = true ∨ ∃ r, m'.evicting r = some (q, n) := by
  rw [h.copied, Bool.or_eq_true] at hc
  rw [h.evicted, h.evicting]
  rcases hc with hc | hc
  · cases e with
    | readVaddr q' vaddr =>
      simp only [Event.copies, decide_eq_true_eq] at hc
      refine .inr ⟨p, ?_⟩
      rw [Function.update_self, ← hc.1, ← hc.2]
      cases hp : m.evicting p with
      | none => rw [hp] at hx; exact (Option.some.inj hx).symm
      | some y => rw [hp] at hx; cases hx
    | _ => cases hc
  rw [Bool.and_eq_true] at hc
  rcases hm.copied q n hc.1 with hev | ⟨r, hr⟩
  · -- the page was not there, and it has not been mapped
    have hafter := hc.2
    simp only [hm.absent q n hev, Option.isNone_none, Bool.true_and, Bool.not_eq_true', Option.isSome_eq_false_iff] at hafter
    refine .inl ?_
    rw [hev, hafter]
    rfl
  · by_cases hrp : r = p
    · subst hrp
      rw [hr] at hx
      cases e with
      | readVaddr q' vaddr => cases hx
      | demap q' vaddr =>
        simp only [Event.pairing, Option.ite_none_right_eq_some] at hx
        obtain ⟨⟨hxq, hnone⟩, -⟩ := hx
        simp only [reduceCtorEq, false_or, Option.some.injEq, Prod.mk.injEq] at hxq
        refine .inl ?_
        rw [hxq.1, hxq.2, hnone]
        simp [Event.clears]
      | _ =>
        refine .inr ⟨r, ?_⟩
        rw [Function.update_self]
        exact (Option.some.inj hx).symm
    · exact .inr ⟨r, by rw [Function.update_of_ne hrp]; exact hr⟩

end Advance

/-- The next step of a call keeps the invariant, if it clears a page with care. -/
theorem Settled.kernel (hm : Settled m) (hproc : (m.cpus c).proc = some p) {β : Type}
    {f : Kernel → Except Stuck (Event × β × Kernel)} {k : β → KThread Unit} (ht : m.threads p = .step f k) {b : β}
    (hf : f m.kernel = .ok (e, b, s)) (hcare : ∀ q vaddr, e = .demap q vaddr → ∀ d, m.concerned e d = true →
      Flushes (Function.update m.threads p (k b) q)) :
    Settled ({ m.observe p e s with threads := Function.update m.threads p (k b) }.resume c p e) := by
  obtain ⟨x, hx, hk⟩ : ∃ x, Event.pairing (m.evicting p) e s = some x ∧
      (k b).Follows Event.pairing (fun x _ => x = none) x := by
    have hp := hm.paired p
    rw [ht] at hp
    exact hp m.kernel e b s hf
  have hadv : Advance m c p e (k b) x _ := resume_advance hx
  have hrest : Flushes (m.threads p) → e.flushes = false → Flushes (k b) := by
    intro hfl hno
    rw [ht] at hfl
    obtain ⟨y, hy, hrest⟩ := hfl m.kernel e b s hf
    dsimp only at hy
    rw [hno] at hy
    cases hy
    exact hrest
  constructor
  · intro c₁ c₂ q h₁ h₂
    exact hm.single c₁ c₂ q (hadv.proc hproc h₁) (hadv.proc hproc h₂)
  · intro d hd
    exact hadv.flush hm hproc hrest hcare hd
  · intro d q n hq hd hev
    exact hadv.forgotten hm hq hd hev
  · intro q n hev
    exact hadv.absent hev
  · intro q n hc
    exact hadv.copied_cases hm (by rw [resume_kernel]; exact hx) hc
  · intro r
    rw [hadv.threads, hadv.evicting]
    by_cases hrp : r = p
    · subst hrp
      rw [Function.update_self, Function.update_self]
      exact hk
    · rw [Function.update_of_ne hrp, Function.update_of_ne hrp]
      exact hm.paired r

end Smp

/-! ## Calls pair their copies -/

/-- The thread clears every page it copies. -/
abbrev Pairs {α : Type} (t : KThread α) : Prop := t.Follows Event.pairing (fun x _ => x = none) none

theorem demappagesSwapOut_absent {p : ProcIdx} {vaddr : Nat} {s s' : Kernel} (h : demappagesSwapOut p vaddr s = .ok s') :
    userPte p (vaddr / pgSize) s' = none := by
  unfold demappagesSwapOut at h
  obtain ⟨pd, hpd, h⟩ := bind_eq_ok.1 h
  split at h
  · cases h
  · next pte hpte =>
    cases h
    have hpage : vaddr / pgSize * pgSize / pgSize = vaddr / pgSize := Nat.mul_div_cancel _ (by decide)
    have htab : pd.tables (pdx vaddr) ≠ none := by rw [Ne, ← pte?_eq_none, hpte]; simp
    simp [userPte, Kernel.setPgdir_ptable, pte?_page hpage, pte?_setPte_same htab]

namespace Threaded

variable {α β : Type} {p : ProcIdx} {x : Option (ProcIdx × Nat)}

theorem pairs_bind {t : KThread α} {k : α → KThread β} (ht : Pairs t) (hk : ∀ a, Pairs (k a)) : Pairs (t >>= k) := by
  apply Thread.Follows.bind
  apply ht.mono
  rintro x a rfl
  exact hk a

theorem pairs_pure (a : α) : Pairs (pure a : KThread α) := rfl

theorem pairs_doing (f : Kernel → Except Stuck (α × Kernel)) : Pairs (doing f) :=
  Thread.Follows.atomic fun _ _ _ _ => ⟨none, rfl, rfl⟩

theorem pairs_stop (x : Stuck) : Pairs (stop x : KThread α) := pairs_doing _

theorem pairs_nap (miss : Bool) : Pairs (nap miss) := by
  cases miss
  · exact pairs_pure ()
  · exact Thread.Follows.atomic fun _ _ _ _ => ⟨none, rfl, rfl⟩

theorem writeswap_follows (kind : SwapKind) (bno : Nat) : ∀ is : List (Fin 8),
    (writeswap kind p bno is).Follows Event.pairing (fun y _ => y = x) x
  | [] => rfl
  | i :: is => by
    apply Thread.Follows.bind
    apply Thread.Follows.atomic
    intro _ _ _ _
    refine ⟨x, ?_, writeswap_follows kind bno is⟩
    cases x <;> rfl

/-- `swap_out` clears the page, unless there is no slot for it. -/
theorem swapOut_follows (kind : SwapKind) (vaddr : Nat) (hx : x = none ∨ x = some (p, vaddr / pgSize)) :
    (swapOut kind p vaddr).Follows Event.pairing (fun y r => y = none ∨ r < 0 ∧ y = x) x := by
  apply Thread.Follows.bind
  apply Thread.Follows.atomic
  intro _ slot _ _
  refine ⟨x, by cases x <;> rfl, ?_⟩
  cases slot with
  | none => exact .inr ⟨by decide, rfl⟩
  | some findex =>
    apply Thread.Follows.bind
    apply (writeswap_follows kind _ _).mono
    rintro y _ rfl
    apply Thread.Follows.bind
    apply Thread.Follows.atomic
    intro s _ s' hs'
    obtain ⟨s₁, hdemap, h⟩ := bind_eq_ok.1 hs'
    cases h
    refine ⟨none, ?_, ?_⟩
    · cases y <;> exact if_pos ⟨hx, demappagesSwapOut_absent hdemap⟩
    · apply Thread.Follows.bind
      apply (pairs_doing _).mono
      rintro y _ rfl
      exact .inl rfl

theorem pairs_swapOut (kind : SwapKind) (vaddr : Nat) : Pairs (swapOut kind p vaddr) := by
  apply (swapOut_follows kind vaddr (.inl rfl)).mono
  rintro y r (h | ⟨-, h⟩) <;> exact h

/-- Only `read_vaddr` copies, and then `swap_out` clears the page or the kernel stops. -/
theorem pairs_evict : Pairs evict := by
  apply Thread.Follows.bind
  intro s e b s' hs'
  have hstart : e = .quiet ∧ b = none ∨ ∃ q vaddr, e = .readVaddr q vaddr ∧ b = some (q, vaddr) := by
    unfold evictStart at hs'
    obtain ⟨⟨index, lru⟩, -, hs'⟩ := bind_eq_ok.1 hs'
    cases index with
    | none => cases hs'
    | some index =>
      obtain ⟨pid, -, hs'⟩ := bind_eq_ok.1 hs'
      obtain ⟨vaddr, -, hs'⟩ := bind_eq_ok.1 hs'
      obtain ⟨lru', -, hs'⟩ := bind_eq_ok.1 hs'
      dsimp only at hs'
      split at hs'
      · obtain ⟨l, -, hs'⟩ := bind_eq_ok.1 hs'
        obtain ⟨s₁, -, hs'⟩ := bind_eq_ok.1 hs'
        cases hs'
        exact .inl ⟨rfl, rfl⟩
      · next pr _ =>
        obtain ⟨⟨r, s₁⟩, -, hs'⟩ := bind_eq_ok.1 hs'
        dsimp only at hs'
        split at hs'
        · cases hs'
          exact .inl ⟨rfl, rfl⟩
        · cases hs'
          exact .inr ⟨pr, vaddr, rfl, rfl⟩
  rcases hstart with ⟨rfl, rfl⟩ | ⟨q, vaddr, rfl, rfl⟩
  · exact ⟨none, rfl, rfl⟩
  · refine ⟨some (q, vaddr / pgSize), rfl, ?_⟩
    apply Thread.Follows.bind
    apply (swapOut_follows .generic vaddr (.inr rfl)).mono
    rintro y r hyr
    split
    · apply Thread.Follows.atomic
      intro _ _ _ h
      cases h
    · next hr =>
      rcases hyr with rfl | ⟨hneg, -⟩
      · rfl
      · exact absurd hneg hr

theorem pairs_getLru (pid : Int) (vaddr : Nat) : ∀ rounds, Pairs (getLru pid vaddr rounds)
  | 0 => pairs_stop _
  | rounds + 1 => by
    apply pairs_bind (pairs_doing _)
    intro r
    split
    · exact pairs_bind pairs_evict fun _ => pairs_getLru pid vaddr rounds
    · exact pairs_pure ()

theorem pairs_kalloc (rounds : Nat) (pid lru : Int) : Pairs (kalloc rounds pid lru) := by
  apply pairs_bind (pairs_doing _)
  rintro (_ | f)
  · exact pairs_pure _
  · dsimp only
    split
    · exact pairs_bind (pairs_getLru _ _ _) fun _ => pairs_pure _
    · exact pairs_pure _

theorem pairs_readswapLoop (miss : Nat → Bool) (f bno : Nat) : ∀ is : List (Fin 8), Pairs (readswapLoop miss f bno is)
  | [] => pairs_pure ()
  | _ :: is => pairs_bind (pairs_nap _) fun _ => pairs_bind (pairs_doing _) fun _ => pairs_readswapLoop miss f bno is

theorem pairs_readswap (miss : Nat → Bool) (bno : Nat) : Pairs (readswap miss p bno) := by
  apply pairs_bind (pairs_doing _)
  intro s
  apply pairs_bind (pairs_kalloc _ _ _)
  rintro (_ | f)
  · exact pairs_stop _
  · exact pairs_bind (pairs_readswapLoop _ _ _ _) fun _ => pairs_pure f

theorem pairs_swapIn (miss : Nat → Bool) (kind : SwapKind) (vaddr : Nat) : Pairs (swapIn miss kind p vaddr) := by
  apply pairs_bind (pairs_doing _)
  rintro (_ | findex)
  · exact pairs_pure _
  · exact pairs_bind (pairs_readswap _ _) fun f => pairs_doing _

theorem pairs_pgfltHandler (tm : Timing) (cr2 : Nat) : Pairs (pgfltHandler tm p cr2) := by
  unfold pgfltHandler
  dsimp only
  split
  · exact pairs_stop _
  apply pairs_bind (pairs_doing _)
  rintro (_ | kind)
  · apply pairs_bind (pairs_kalloc _ _ _)
    rintro (_ | f)
    · exact pairs_stop _
    · apply pairs_bind (pairs_doing _)
      intro r
      split
      · exact pairs_stop _
      · have hfill : ∀ miss addr, Pairs (fillRound miss p addr f) := fun miss addr =>
          pairs_bind (pairs_nap _) fun _ => pairs_doing _
        exact pairs_bind (hfill _ _) fun _ => hfill _ _
  · apply pairs_bind (pairs_doing _)
    intro s
    apply pairs_bind (pairs_getLru _ _ _)
    intro _
    apply pairs_bind (pairs_swapIn _ _ _)
    intro r
    split
    · exact pairs_stop _
    · exact pairs_pure ()

theorem pairs_growprocLoop : ∀ n i, Pairs (growprocLoop p n i)
  | 0, _ => pairs_pure _
  | n + 1, i => by
    apply pairs_bind (pairs_doing _)
    intro s
    apply pairs_bind (pairs_swapOut _ _)
    intro r
    split
    · exact pairs_pure _
    · exact pairs_growprocLoop n (i + 1)

theorem pairs_switchuvm : Pairs (switchuvm p) := Thread.Follows.atomic fun _ _ _ _ => ⟨none, rfl, rfl⟩

theorem pairs_growprocEnd (sz : Nat) : Pairs (growprocEnd p sz) :=
  pairs_bind (pairs_doing _) fun _ => pairs_bind pairs_switchuvm fun _ => pairs_pure _

theorem pairs_growproc (n : Int) : Pairs (growproc p n) := by
  apply pairs_bind (pairs_doing _)
  intro s
  dsimp only
  split
  · exact pairs_pure _
  split
  · apply pairs_bind (pairs_doing _)
    intro sz
    split
    · exact pairs_pure _
    · apply pairs_bind (pairs_growprocLoop _ _)
      intro r
      split
      · exact pairs_pure _
      · exact pairs_growprocEnd _
  · apply pairs_bind (pairs_doing _)
    intro sz
    split
    · exact pairs_pure _
    · exact pairs_growprocEnd _

theorem pairs_copyuvmLoop (rounds : Nat) (old new : ProcIdx) : ∀ n i mem d, Pairs (copyuvmLoop rounds old new n i mem d)
  | 0, _, _, _ => pairs_pure _
  | n + 1, i, mem, d => by
    apply pairs_bind (pairs_doing _)
    intro pd
    cases pd.pte? i with
    | none => exact pairs_stop _
    | some pte =>
      dsimp only
      split
      · apply pairs_bind (pairs_doing _)
        intro r
        split
        · exact pairs_pure _
        · exact pairs_copyuvmLoop rounds old new n _ _ _
      · apply pairs_bind (pairs_doing _)
        intro s
        apply pairs_bind (pairs_kalloc _ _ _)
        rintro (_ | f)
        · exact pairs_pure _
        · apply pairs_bind (pairs_doing _)
          intro r
          split
          · exact pairs_bind (pairs_doing _) fun _ => pairs_pure _
          · exact pairs_copyuvmLoop rounds old new n _ _ _

theorem pairs_fork (rounds : Nat) : Pairs (fork rounds p) := by
  apply pairs_bind (pairs_doing _)
  rintro (_ | np)
  · exact pairs_pure _
  · have hcopy : Pairs (copyuvm rounds p np) := by
      apply pairs_bind (pairs_doing _)
      rintro (_ | d)
      · exact pairs_pure _
      · apply pairs_bind (pairs_doing _)
        intro s
        apply pairs_bind (pairs_copyuvmLoop _ _ _ _ _ _ _)
        intro r
        dsimp only
        split
        · exact pairs_pure _
        · exact pairs_doing _
    apply pairs_bind hcopy
    rintro (_ | d)
    · exact pairs_doing _
    · exact pairs_doing _

theorem pairs_execLoad (miss : Nat → Bool) (file : File) : ∀ n off sz pd, Pairs (execLoad miss p file n off sz pd)
  | 0, _, _, _ => pairs_pure _
  | n + 1, off, sz, pd => by
    apply pairs_bind (pairs_nap _)
    intro _
    split
    · exact pairs_pure _
    split
    · exact pairs_execLoad miss file n _ _ _
    split
    · exact pairs_pure _
    split
    · exact pairs_pure _
    split
    · exact pairs_pure _
    apply pairs_bind (pairs_doing _)
    intro r
    dsimp only
    split
    · exact pairs_pure _
    · exact pairs_execLoad miss file n _ _ _

theorem pairs_execCommit (path : List UInt8) (elf : ElfHdr) (pd : PageDir) (sz sp base : Nat) :
    Pairs (execCommit p path elf pd sz sp base) := by
  unfold execCommit
  split
  · exact pairs_stop _
  apply pairs_bind (pairs_doing _)
  intro old
  apply pairs_bind pairs_switchuvm
  intro _
  apply pairs_bind (pairs_swapOut _ _)
  intro r
  split
  · exact pairs_stop _
  · cases old with
    | none => exact pairs_stop _
    | some d => exact pairs_doing _

theorem pairs_execStack (path : List UInt8) (argv : List (List UInt8)) (elf : ElfHdr) (pd : PageDir) (sz : Nat) :
    Pairs (execStack p path argv elf pd sz) := by
  apply pairs_bind (pairs_doing _)
  intro r
  dsimp only
  split
  · exact pairs_doing _
  apply pairs_bind (pairs_doing _)
  rintro ⟨pd', _ | ⟨sp, args⟩⟩
  · exact pairs_doing _
  · exact pairs_bind (pairs_doing _) fun _ => pairs_execCommit _ _ _ _ _ _

theorem pairs_exec (miss : Nat → Bool) (path : List UInt8) (argv : List (List UInt8)) : Pairs (exec miss p path argv) := by
  apply pairs_bind (pairs_doing _)
  intro s
  cases s.fs.namei path with
  | none => exact pairs_pure _
  | some ip =>
    apply pairs_bind (pairs_doing _)
    intro file
    apply pairs_bind (pairs_nap _)
    intro _
    split
    · exact pairs_pure _
    split
    · exact pairs_pure _
    apply pairs_bind (pairs_doing _)
    rintro (_ | pd)
    · exact pairs_pure _
    · apply pairs_bind (pairs_execLoad _ _ _ _ _ _)
      rintro ⟨_ | sz, pd'⟩
      · exact pairs_doing _
      · exact pairs_execStack _ _ _ _ _

theorem pairs_wait : ∀ rounds, Pairs (wait p rounds)
  | 0 => pairs_stop _
  | rounds + 1 => by
    apply pairs_bind (pairs_doing _)
    rintro (_ | pid)
    · exact pairs_bind (pairs_nap _) fun _ => pairs_wait rounds
    · exact pairs_pure _

end Threaded

theorem SysCall.thread_pairs (tm : Timing) (c : SysCall) : Pairs (c.thread tm) := by
  open Threaded in
  cases c with
  | fork p => exact pairs_bind (pairs_fork _) fun _ => pairs_pure ()
  | exec p path argv => exact pairs_bind (pairs_exec _ _ _) fun _ => pairs_pure ()
  | growproc p n => exact pairs_bind (pairs_growproc _) fun _ => pairs_pure ()
  | fault p cr2 => exact pairs_pgfltHandler _ _
  | exit p => exact Thread.Follows.atomic fun _ _ _ _ => ⟨none, rfl, rfl⟩
  | wait p => exact pairs_bind (pairs_wait _) fun _ => pairs_pure ()

/-! ## Runs -/

namespace Smp

variable {m m' : Smp}

theorem Settled.step (hm : Settled m) {act : CpuAct} (hcare : Careful act m) (h : step act m = .ok m') : Settled m' := by
  cases act with
  | dispatch c q =>
    simp only [Smp.step] at h
    split at h
    · next hd =>
      split at h
      · cases h
      · cases h
        apply hm.lcr3
        rintro q' d hq
        cases hq
        exact hd.2.1 d
    · cases h
      exact hm
  | yield c =>
    cases h
    exact hm.lcr3 (by rintro q d ⟨⟩)
  | walk c n =>
    simp only [Smp.step] at h
    split at h
    · cases h
      exact hm
    · next q hq =>
      cases h
      have hproc : ∀ d, ((m.cache c n (userPte q n m.kernel)).cpus d).proc = (m.cpus d).proc := by
        intro d
        by_cases hdc : d = c
        · subst hdc; simp [cache]
        · simp [cache, Function.update_of_ne hdc]
      refine ⟨?_, ?_, ?_, hm.absent, hm.copied, hm.paired⟩
      · intro c₁ c₂ q' h₁ h₂
        rw [hproc] at h₁ h₂
        exact hm.single c₁ c₂ q' h₁ h₂
      · intro d hd
        rw [hproc]
        exact hm.flush d hd
      · intro d q' n' hq' hd hev
        rw [hproc] at hq'
        have hold := hm.forgotten d q' n' hq' hd hev
        by_cases hdc : d = c
        · subst hdc
          simp only [cache, Function.update_self, Function.update_apply]
          split
          · next hn =>
            rw [hq] at hq'
            cases hq'
            rw [← hn]
            exact hm.absent q n' hev
          · exact hold
        · simpa [cache, Function.update_of_ne hdc] using hold
  | access c a byte =>
    simp only [Smp.step] at h
    split at h
    · cases h
      -- a store changes no page table
      exact ⟨hm.single, hm.flush, hm.forgotten, hm.absent, hm.copied, hm.paired⟩
    · cases h
      exact hm
  | call c tm call =>
    simp only [Smp.step] at h
    split at h
    · next hc =>
      cases h
      have hidle : m.evicting call.actor = none := by
        have hp := hm.paired call.actor
        have huser := hc.2
        unfold userMode at huser
        cases ht : m.threads call.actor with
        | done x => rw [ht] at hp; exact hp
        | step f k => rw [ht] at huser; cases huser
      refine ⟨hm.single, ?_, hm.forgotten, hm.absent, hm.copied, ?_⟩
      · intro d hd
        obtain ⟨q, hq, hfl⟩ := hm.flush d hd
        have hne : q ≠ call.actor := by
          rintro rfl
          exact not_flushes hc.2 hfl
        exact ⟨q, hq, by simpa only [Function.update_of_ne hne] using hfl⟩
      · intro r
        by_cases hr : r = call.actor
        · subst hr
          simp only [Function.update_self, hidle]
          exact call.thread_pairs tm
        · simp only [Function.update_of_ne hr]
          exact hm.paired r
    · cases h
      exact hm
  | kernel c =>
    simp only [Smp.step] at h
    split at h
    · cases h
      exact hm
    · next p hp =>
      split at h
      · cases h
        exact hm
      · next f k ht =>
        split at h
        · cases h
        · next e b s hf =>
          cases h
          exact hm.kernel hp ht hf fun q vaddr he d hd => hcare p f k q vaddr b s hp ht (he ▸ hf) d (he ▸ hd)

end Smp

/-! ## A crowded ring -/

/-- The ring is full of the pages of process 2. -/
def fullRing : Lru where
  head := some 0
  frames := fun i => ⟨2, i * pgSize, some (i + 1), some (i - 1)⟩
  bitmap := fun _ => 1
  lk := false

/-- A thousand pages, all present. -/
def fullDir : PageDir where
  frame := 996
  tables := fun i => if i = 0 then some ⟨995, fun j => ⟨⟨j < 1000, true, true⟩, 2000 + j⟩⟩ else none

/-- Process 1 has a page in swap, and process 2 has as many pages as the ring has entries. -/
def crowdedKernel : Kernel where
  lru := fullRing
  swap := ⟨fun _ => ⟨0, none, .generic, 1⟩, fun i => if i = 0 then 1 else -1, false⟩
  phys := ⟨smallLayout, List.range' 1000 200, fun _ => zeroPage⟩
  disk := fun _ _ => 0
  fs := smallKernel.fs
  ptable := fun i =>
    if i = 0 then { smallProc with swapList := some 0 }
    else if i = 1 then { smallProc with sz := 1000 * pgSize, pgdir := some fullDir, kstack := some 994, pid := 2, parent := some 0 }
    else Proc.zero
  nextpid := 3
  initproc := some 0

namespace Smp

instance (act : CpuAct) (m : Smp) : Decidable (Fresh act m) :=
  match act with
  | .access c a byte =>
    match h : m.translate c a byte.isSome with
    | none => isTrue (by intro q f h'; rw [h] at h'; cases h')
    | some (q, f) =>
      decidable_of_iff (m.unflushed c = false ∧ m.evicted q (a / pgSize) = false ∧
        (byte.isSome = true → m.copied q (a / pgSize) = false))
        ⟨fun hq q' f' h' => by rw [h] at h'; cases h'; exact hq, fun hq => hq q f h⟩
  | .dispatch _ _ | .yield _ | .walk _ _ | .call _ _ _ | .kernel _ => isTrue trivial

instance decidableAlways (P : CpuAct → Smp → Prop) [∀ act m, Decidable (P act m)] :
    ∀ (acts : List CpuAct) (m : Smp), Decidable (Always P acts m)
  | [], _ => isTrue trivial
  | act :: acts, m =>
    match h : step act m with
    | .error _ => decidable_of_iff (P act m) ⟨fun hp => ⟨hp, fun m' h' => by rw [h] at h'; cases h'⟩, fun hp => hp.1⟩
    | .ok m' =>
      have := decidableAlways P acts m'
      decidable_of_iff (P act m ∧ Always P acts m')
        ⟨fun hp => ⟨hp.1, fun m'' h' => by rw [h] at h'; cases h'; exact hp.2⟩, fun hp => ⟨hp.1, hp.2 m' h⟩⟩

theorem Always.mono {P Q : CpuAct → Smp → Prop} (hPQ : ∀ act m, P act m → Q act m) :
    ∀ {acts : List CpuAct} {m : Smp}, Always P acts m → Always Q acts m
  | [], _, _ => trivial
  | _ :: _, _, h => ⟨hPQ _ _ h.1, fun m' h' => (h.2 m' h').mono hPQ⟩

/-- A page that is cleared concerns no CPU, and no store is to a page that is being evicted. -/
def Unconcerned : CpuAct → Smp → Prop
  | .kernel c, m =>
    match (m.cpus c).proc with
    | none => True
    | some p =>
      match m.threads p with
      | .done _ => True
      | .step f _ =>
        match f m.kernel with
        | .ok (.demap q vaddr, _, _) => ∀ d, m.concerned (.demap q vaddr) d = false
        | _ => True
  | .access c a (some _), m =>
    match m.translate c a true with
    | none => True
    | some (q, _) => ∀ p, m.evicting p ≠ some (q, a / pgSize)
  | _, _ => True

instance (act : CpuAct) (m : Smp) : Decidable (Unconcerned act m) := by
  unfold Unconcerned
  repeat' split
  all_goals infer_instance

theorem Unconcerned.careful {act : CpuAct} {m : Smp} (h : Unconcerned act m) : Careful act m := by
  cases act with
  | kernel c =>
    intro p β f k q vaddr b s hp ht hf d hd
    simp only [Unconcerned, hp, ht, hf] at h
    rw [h d] at hd
    cases hd
  | access c a byte =>
    cases byte with
    | none => trivial
    | some x =>
      intro q f htr
      simp only [Unconcerned, htr] at h
      exact h
  | _ => trivial

end Smp

/-- Process 1 faults on CPU 0, and has evicted page 0 of process 2. -/
def crowdedFault : List CpuAct :=
  [.call 0 ⟨2, fun _ => false⟩ (.fault 0 0)] ++ List.replicate 5 (.kernel 0) ++
    (List.replicate 8 [.kernel 0, .dispatch 0 0]).flatten ++ [.kernel 0]

/-! ## Stale translations -/

/-- In every run in which pages are cleared with care, no CPU uses the translation of a page that has
been cleared, and no store goes to a page that has been copied to swap. -/
theorem translations_fresh (s : Kernel) (acts : List CpuAct) (h : Smp.Always Smp.Careful acts (Smp.start s)) :
    Smp.Always Smp.Fresh acts (Smp.start s) := by
  have hrun : ∀ (acts : List CpuAct) (m : Smp), m.Settled → Smp.Always Smp.Careful acts m → Smp.Always Smp.Fresh acts m := by
    intro acts
    induction acts with
    | nil => intro _ _ _; trivial
    | cons act acts ih =>
      rintro m hm ⟨hcare, hrest⟩
      refine ⟨hm.fresh hcare, fun m' hm' => ?_⟩
      exact ih m' (hm.step hcare hm') (hrest m' hm')
  exact hrun acts _ (Smp.start_settled s) h

/-- The victim runs only after the eviction: both processes go on. -/
theorem translations_fresh_crowded : Smp.Always Smp.Fresh
    ([.dispatch 0 0] ++ crowdedFault ++ List.replicate 20 (.kernel 0) ++
      [.walk 0 0, .access 0 0 (some 7), .dispatch 1 1, .walk 1 1, .access 1 pgSize (some 7)]) (Smp.start crowdedKernel) :=
  translations_fresh crowdedKernel _ (Smp.Always.mono (fun _ _ => Smp.Unconcerned.careful) (by decide +kernel))

/-- The victim runs on CPU 1, which has cached the page: its store goes to the frame that was copied. -/
theorem translations_stale : ¬Smp.Always Smp.Fresh
    ([.dispatch 0 0, .dispatch 1 1, .walk 1 0] ++ crowdedFault ++ [.access 1 0 (some 7)]) (Smp.start crowdedKernel) := by
  decide +kernel

end DemandPaging
