/-
The argument strings of `exec`: the stores it makes through `stack_buffer`, `path` and `name`, and
the stack page that it builds.
-/
import DemandPaging.Exec.Image
import DemandPaging.Lib.Buffer

namespace DemandPaging

open Buffer

/-! ## `exec` up to the arguments -/

/-- What `exec` has when it comes to the arguments: the header, the new directory, the size, the
address of the stack page and the state. -/
structure ArgLoop where
  elf : ElfHdr
  pgdir : PageDir
  sz : Nat
  base : Nat
  kernel : Kernel

/-- The two pages of the stack, in `exec`. -/
def execPages (p : ProcIdx) (elf : ElfHdr) (pd : PageDir) (sz : Nat) (s : Kernel) :
    Except Stuck ((Int × Kernel) ⊕ ArgLoop) := do
  let s := s.setProc p { s.ptable p with cdbSize := sz }
  let sz := pgRoundUp sz
  let base := (sz + pgSize) % wordSize
  let (sz, pd, s) ← allocuvm p pd sz (sz + 2 * pgSize) false s
  if sz = 0 then Sum.inl <$> execBad p pd s
  else
    let pd ← clearpteu pd (sz - 2 * pgSize)
    return .inr ⟨elf, pd, sz, base, s⟩

/-- `exec` up to the loop over the arguments: its result where it gives up before. -/
def execArgs (p : ProcIdx) (path : List UInt8) (s : Kernel) : Except Stuck ((Int × Kernel) ⊕ ArgLoop) := do
  match s.fs.namei path with
  | none => return .inl (-1, s)
  | some ip =>
    let s := s.setProc p { s.ptable p with ip := ip }
    let file := s.fs.file ip
    let elf := elfHdr file
    if readi file 0 elfHdrSize ≠ some elfHdrSize then return .inl (-1, s)
    else if elf.magic ≠ elfMagic then return .inl (-1, s)
    else
      let (pd, m) ← setupkvm s.phys
      let s := { s with phys := m }
      match pd with
      | none => return .inl (-1, s)
      | some pd =>
        let (sz, pd, s) ← execLoad p file elf.phnum elf.phoff 0 pd s
        match sz with
        | none => Sum.inl <$> execBad p pd s
        | some sz => execPages p elf pd sz s

/-- `exec` from the loop over the arguments on. -/
def execPush (p : ProcIdx) (path : List UInt8) (argv : List (List UInt8)) (x : ArgLoop) : Except Stuck (Int × Kernel) := do
  let (r, buf) ← pushArgs x.base argv 0 pgSize (x.kernel.ptable p).stackBuffer []
  let s := x.kernel.setProc p { x.kernel.ptable p with stackBuffer := buf }
  match r with
  | none => execBad p x.pgdir s
  | some (sp, args) =>
    let argc := args.length
    let ustack := [0xffffffff, argc, (x.base + subWord sp ((argc + 1) * 4)) % wordSize] ++ args ++ [0]
    let sp := subWord sp ((3 + argc + 1) * 4)
    let buf ← storeBytes buf sp (ustack.flatMap leBytes)
    let s := s.setProc p { s.ptable p with stackBuffer := buf }
    execCommit p path x.elf x.pgdir x.sz sp x.base s

section Split

variable {s : Kernel} {p : ProcIdx} {path : List UInt8} {argv : List (List UInt8)} {r : Int × Kernel} {x : ArgLoop}

theorem execStack_split (elf : ElfHdr) (pd : PageDir) (c : Nat) : execStack p path argv elf pd c s =
    execPages p elf pd c s >>= Sum.elim pure (execPush p path argv) := by
  simp only [execStack, execPages, bind_assoc]
  refine bind_congr fun ⟨sz, pd, s⟩ => ?_
  dsimp only
  split_ifs with hz
  · rw [bind_map_left]
    exact (bind_pure _).symm
  · rw [bind_assoc]
    rfl

/-- The two halves make up `exec`. -/
theorem exec_split : exec p path argv s = execArgs p path s >>= Sum.elim pure (execPush p path argv) := by
  unfold exec execArgs
  cases s.fs.namei path with
  | none => rfl
  | some ip =>
    dsimp only
    split_ifs with hread hmagic
    · rfl
    · rfl
    · simp only [bind_assoc]
      refine bind_congr fun x => ?_
      obtain ⟨pd, m⟩ := x
      cases pd with
      | none => rfl
      | some pd =>
        simp only [bind_assoc]
        refine bind_congr fun y => ?_
        obtain ⟨sz, pd, t⟩ := y
        cases sz with
        | none =>
          dsimp only
          rw [bind_map_left]
          exact (bind_pure _).symm
        | some c => exact execStack_split _ pd c

/-- The stack page is the last page below the size. -/
structure ArgLoop.Placed (x : ArgLoop) : Prop where
  top : x.base + pgSize = x.sz
  lt : x.sz < kernBase
  aligned : x.base % pgSize = 0

/-- Where `exec` gives up before the arguments it returns `-1`, and otherwise it has two new pages. -/
theorem execArgs_ok {y : (Int × Kernel) ⊕ ArgLoop} (h : execArgs p path s = .ok y) :
    Sum.elim (fun r => r.1 = -1) ArgLoop.Placed y := by
  have hbad : ∀ {pd : PageDir} {t : Kernel}, Sum.inl <$> execBad p pd t = .ok y →
      Sum.elim (fun r => r.1 = -1) ArgLoop.Placed y := by
    intro pd t ht
    cases hb : execBad p pd t with
    | error e => rw [hb] at ht; cases ht
    | ok r => rw [hb] at ht; cases ht; exact execBad_ok hb
  unfold execArgs at h
  cases hn : s.fs.namei path with
  | none => rw [hn] at h; cases h; rfl
  | some ip =>
    rw [hn] at h
    dsimp only at h
    split_ifs at h
    · cases h; rfl
    · cases h; rfl
    obtain ⟨⟨pd, m⟩, -, h⟩ := bind_eq_ok.1 h
    cases pd with
    | none => cases h; rfl
    | some pd =>
      obtain ⟨⟨sz, pd₁, t⟩, hload, h⟩ := bind_eq_ok.1 h
      obtain ⟨sz', pd₁', m₁, ph, hload', -, hl⟩ := execLoad_spec p (s.fs.file ip) (elfHdr (s.fs.file ip)).phnum
        (elfHdr (s.fs.file ip)).phoff 0 pd (s.own p { s.ptable p with ip := ip } m) (by decide)
      cases hload'.symm.trans hload
      cases sz with
      | none => exact hbad h
      | some c =>
        have hc := (hl c rfl).le
        unfold execPages at h
        obtain ⟨⟨sz, pd₂, t₂⟩, halloc, h⟩ := bind_eq_ok.1 h
        obtain ⟨sz', pd₂', m₂, halloc', -, hres, -⟩ := allocuvm_blank p pd₁ (pgRoundUp c) (pgRoundUp c + 2 * pgSize)
          ((((s.own p { s.ptable p with ip := ip } m).own p
            { (s.own p { s.ptable p with ip := ip } m).ptable p with ph := ph } m₁)).setProc p _)
          (by simp only [pgRoundUp, pgSize, wordSize, kernBase] at *; omega)
        cases halloc'.symm.trans halloc
        dsimp only at h
        split_ifs at h with hz
        · exact hbad h
        · obtain ⟨hlt, hmax, -⟩ := hres hz
          obtain ⟨pd', -, h⟩ := bind_eq_ok.1 h
          cases h
          -- the size has room for both pages, so the address of the stack page does not wrap
          simp only [pgRoundUp, pgSize, wordSize, kernBase] at hc hlt hmax
          constructor <;> simp only [pgRoundUp, pgSize, wordSize, kernBase] <;> omega

end Split

/-! ## The stack pointer -/

/-- The bytes that an argument takes, its end rounded to a word. -/
def argRoom (arg : List UInt8) : Nat := (arg.length + 4) / 4 * 4

def argsRoom (argv : List (List UInt8)) : Nat := (argv.map argRoom).sum

/-- The encoding fits in one page: the strings, three words, the addresses and a zero. -/
def ArgsFit (argv : List (List UInt8)) : Prop := argsRoom argv + (3 + argv.length + 1) * 4 ≤ pgSize

instance (argv : List (List UInt8)) : Decidable (ArgsFit argv) := inferInstanceAs (Decidable (_ ≤ _))

/-- The offset of the next argument. -/
def pushSp (sp : Nat) (arg : List UInt8) : Nat := subWord sp (arg.length + 1) / 4 * 4

/-- The offsets of the arguments. -/
def argOffs : Nat → List (List UInt8) → List Nat
  | _, [] => []
  | sp, arg :: argv => pushSp sp arg :: argOffs (pushSp sp arg) argv

section Pointer

variable {sp : Nat} {arg : List UInt8} {argv : List (List UInt8)}

@[simp] theorem argsRoom_nil : argsRoom [] = 0 := rfl

@[simp] theorem argsRoom_cons : argsRoom (arg :: argv) = argRoom arg + argsRoom argv := by simp [argsRoom]

theorem argRoom_mod (arg : List UInt8) : argRoom arg % 4 = 0 := Nat.mul_mod_left _ _

theorem argsRoom_mod : ∀ argv : List (List UInt8), argsRoom argv % 4 = 0
  | [] => rfl
  | arg :: argv => by
    have h := argsRoom_mod argv
    have h' := argRoom_mod arg
    rw [argsRoom_cons]
    omega

theorem pushSp_fits (hsp : sp ≤ pgSize) (h4 : sp % 4 = 0) (hroom : argRoom arg ≤ sp) : pushSp sp arg = sp - argRoom arg := by
  simp only [argRoom, pushSp, subWord, wordSize, pgSize] at *
  omega

/-- A string longer than what is left wraps the pointer to the top of the address space. -/
theorem pushSp_wraps (hsp : sp ≤ pgSize) (h4 : sp % 4 = 0) (hlen : arg.length < kernBase) (hroom : sp < argRoom arg) :
    pgSize < pushSp sp arg := by
  simp only [argRoom, pushSp, subWord, wordSize, pgSize, kernBase] at *
  omega

end Pointer

/-! ## The stores -/

/-- The buffers of `struct proc` that `exec` stores to. -/
inductive ExecBuf where
  | stackBuffer
  | path
  | name
  deriving DecidableEq, Repr

def ExecBuf.size : ExecBuf → Nat
  | .stackBuffer => pgSize
  | .path => 512
  | .name => 16

/-- A copy of `len` bytes to a buffer, from an index on. -/
structure ExecStore where
  buf : ExecBuf
  off : Nat
  len : Nat
  deriving DecidableEq, Repr

/-- All its bytes lie in the buffer. -/
def ExecStore.Within (w : ExecStore) : Prop := w.off + w.len ≤ w.buf.size

instance (w : ExecStore) : Decidable w.Within := inferInstanceAs (Decidable (_ ≤ _))

theorem ExecStore.within_iff {buf : ExecBuf} {off len : Nat} : ExecStore.Within ⟨buf, off, len⟩ ↔ off + len ≤ buf.size := Iff.rfl

/-- The copies of the argument strings. -/
def argStores : Nat → List (List UInt8) → List ExecStore
  | _, [] => []
  | sp, arg :: argv => ⟨.stackBuffer, pushSp sp arg, arg.length + 1⟩ :: argStores (pushSp sp arg) argv

/-- The stores from the loop over the arguments on: the strings, `ustack`, and the two names, the second of
them bounded by the size of `path`. -/
def pushStores (path : List UInt8) (argv : List (List UInt8)) : List ExecStore :=
  argStores pgSize argv ++
    [⟨.stackBuffer, subWord (argv.foldl pushSp pgSize) ((3 + argv.length + 1) * 4), (3 + argv.length + 1) * 4⟩,
      ⟨.path, 0, path.length + 1⟩, ⟨.name, 0, min (lastName path).length 511 + 1⟩]

/-- The stores of `exec`. -/
def execStores (p : ProcIdx) (path : List UInt8) (argv : List (List UInt8)) (s : Kernel) : List ExecStore :=
  match execArgs p path s with
  | .ok (.inr _) => pushStores path argv
  | _ => []

section Stores

variable {sp : Nat} {arg path : List UInt8} {argv : List (List UInt8)}

/-- The strings lie in the buffer exactly when there is room for them. -/
theorem argStores_within : ∀ {argv : List (List UInt8)} {sp : Nat}, sp ≤ pgSize → sp % 4 = 0 → (∀ arg ∈ argv, arg.length < kernBase) →
    ((∀ w ∈ argStores sp argv, w.Within) ↔ argsRoom argv ≤ sp)
  | [], sp, _, _, _ => by simp [argStores]
  | arg :: argv, sp, hsp, h4, hlen => by
    have hmod := argRoom_mod arg
    simp only [argStores, List.forall_mem_cons, ExecStore.within_iff, ExecBuf.size, argsRoom_cons] at hlen ⊢
    by_cases hroom : argRoom arg ≤ sp
    · rw [pushSp_fits hsp h4 hroom, argStores_within (by omega) (by omega) hlen.2]
      simp only [argRoom] at *
      omega
    · have hwrap := pushSp_wraps hsp h4 hlen.1 (by omega)
      constructor
      · rintro ⟨h, -⟩
        omega
      · omega

theorem foldl_pushSp : ∀ {argv : List (List UInt8)} {sp : Nat}, sp ≤ pgSize → sp % 4 = 0 → argsRoom argv ≤ sp →
    argv.foldl pushSp sp = sp - argsRoom argv
  | [], sp, _, _, _ => rfl
  | arg :: argv, sp, hsp, h4, hroom => by
    have hmod := argRoom_mod arg
    rw [argsRoom_cons] at hroom ⊢
    rw [List.foldl_cons, pushSp_fits hsp h4 (by omega), foldl_pushSp (by omega) (by omega) (by omega)]
    omega

/-- All stores stay inside when the encoding and both names fit. -/
theorem pushStores_within (hlen : ∀ arg ∈ argv, arg.length < kernBase) :
    (∀ w ∈ pushStores path argv, w.Within) ↔ ArgsFit argv ∧ path.length < 512 ∧ (lastName path).length < 16 := by
  simp only [pushStores, List.forall_mem_append, List.forall_mem_cons, List.not_mem_nil, false_imp_iff, implies_true, and_true,
    argStores_within (le_refl pgSize) (by decide) hlen]
  have hname : ExecStore.Within ⟨.name, 0, min (lastName path).length 511 + 1⟩ ↔ (lastName path).length < 16 := by
    simp only [ExecStore.Within, ExecBuf.size]
    omega
  have hpath : ExecStore.Within ⟨.path, 0, path.length + 1⟩ ↔ path.length < 512 := by
    simp only [ExecStore.Within, ExecBuf.size]
    omega
  rw [hname, hpath, ← and_assoc]
  refine and_congr_left fun _ => ?_
  simp only [ExecStore.Within, ExecBuf.size, ArgsFit]
  constructor
  · rintro ⟨hroom, hstore⟩
    rw [foldl_pushSp (le_refl _) (by decide) hroom] at hstore
    simp only [subWord, wordSize, pgSize] at hroom hstore ⊢
    omega
  · intro hfit
    have hroom : argsRoom argv ≤ pgSize := by omega
    refine ⟨hroom, ?_⟩
    rw [foldl_pushSp (le_refl _) (by decide) hroom, subWord_le (by omega) (by simp only [pgSize, wordSize]; omega)]
    omega

end Stores

/-! ## The buffer -/

section Stack

variable {base sp : Nat} {arg path : List UInt8} {argv : List (List UInt8)} {buf : Page}

/-- A copy that fits: its bytes are there, and the others are as before. -/
theorem storeBytes_fits (buf : Page) {sp : Nat} (bytes : List UInt8) (h : sp + bytes.length ≤ pgSize) : ∃ buf', storeBytes buf sp bytes = .ok buf' ∧
    Holds buf' sp bytes ∧ ∀ i : Fin pgSize, i.val < sp ∨ sp + bytes.length ≤ i.val → buf' i = buf i := by
  refine ⟨_, by rw [storeBytes, if_neg (by omega)], fun i x hx => ?_, fun i hi => ?_⟩
  · obtain ⟨hlt, rfl⟩ := List.getElem?_eq_some_iff.1 hx
    refine ⟨by omega, ?_⟩
    simp only
    rw [if_pos (by omega), Nat.add_sub_cancel_left, List.getD_eq_getElem?_getD, hx, Option.getD_some]
  · exact if_neg (by omega)

/-- The loop over the arguments when there is room for them. -/
theorem pushArgs_fits (base : Nat) : ∀ (argv : List (List UInt8)) (argc sp : Nat) (buf : Page) (ustack : List Nat),
    argc + argv.length ≤ maxArg → sp ≤ pgSize → sp % 4 = 0 → argsRoom argv ≤ sp → ∃ buf',
      pushArgs base argv argc sp buf ustack =
        .ok (some (sp - argsRoom argv, ustack ++ (argOffs sp argv).map fun o => (base + o) % wordSize), buf') ∧
      (∀ (i : Nat) o arg, (argOffs sp argv)[i]? = some o → argv[i]? = some arg → Holds buf' o (arg ++ [0])) ∧
      ∀ i : Fin pgSize, i.val < sp - argsRoom argv ∨ sp ≤ i.val → buf' i = buf i
  | [], argc, sp, buf, ustack, _, _, _, _ => ⟨buf, by simp [pushArgs, argOffs], by simp, fun _ _ => rfl⟩
  | arg :: argv, argc, sp, buf, ustack, hargc, hsp, h4, hroom => by
    have hmod := argRoom_mod arg
    have hlen : arg.length + 1 ≤ argRoom arg := by simp only [argRoom]; omega
    rw [argsRoom_cons] at hroom
    rw [List.length_cons] at hargc
    have hpush : subWord sp (arg.length + 1) / 4 * 4 = sp - argRoom arg := pushSp_fits hsp h4 (by omega)
    obtain ⟨buf₁, hstore, hheld, hkeep⟩ := storeBytes_fits buf (arg ++ [0])
      (show sp - argRoom arg + (arg ++ [0]).length ≤ pgSize by simp only [List.length_append, List.length_singleton]; omega)
    obtain ⟨buf₂, hrest, hargs, hkeep'⟩ := pushArgs_fits base argv (argc + 1) (sp - argRoom arg) buf₁
      (ustack ++ [(base + (sp - argRoom arg)) % wordSize]) (by omega) (by omega) (by omega) (by omega)
    simp only [List.length_append, List.length_singleton] at hkeep
    refine ⟨buf₂, ?_, ?_, fun i hi => ?_⟩
    · rw [pushArgs, if_neg (by omega)]
      dsimp only
      rw [hpush, hstore, ok_bind, hrest, argOffs, pushSp, hpush, argsRoom_cons, Nat.sub_add_eq]
      simp
    · intro i o arg' ho harg
      rw [argOffs, pushSp, hpush] at ho
      cases i with
      | zero =>
        -- the strings below this one leave it as it is
        obtain rfl : sp - argRoom arg = o := by simpa using ho
        obtain rfl : arg = arg' := by simpa using harg
        exact hheld.congr fun i hi _ => hkeep' i (.inr hi)
      | succ i => exact hargs i o arg' (by simpa using ho) (by simpa using harg)
    · rw [argsRoom_cons] at hi
      rw [hkeep' i (by omega), hkeep i (by omega)]

/-- Without room the copy that wraps is stuck. -/
theorem pushArgs_wraps : ∀ {argv : List (List UInt8)} {argc sp : Nat} {buf : Page} {ustack : List Nat},
    argc + argv.length ≤ maxArg → sp ≤ pgSize → sp % 4 = 0 → (∀ arg ∈ argv, arg.length < kernBase) → sp < argsRoom argv →
      pushArgs base argv argc sp buf ustack = .error .overrun
  | [], argc, sp, buf, ustack, _, _, _, _, hroom => by simp at hroom
  | arg :: argv, argc, sp, buf, ustack, hargc, hsp, h4, hlen, hroom => by
    have hmod := argRoom_mod arg
    rw [argsRoom_cons] at hroom
    rw [List.length_cons] at hargc
    rw [List.forall_mem_cons] at hlen
    rw [pushArgs, if_neg (by omega)]
    dsimp only
    rw [show subWord sp (arg.length + 1) / 4 * 4 = pushSp sp arg from rfl]
    by_cases hfit : argRoom arg ≤ sp
    · have hroom' : arg.length + 1 ≤ argRoom arg := by simp only [argRoom]; omega
      rw [pushSp_fits hsp h4 hfit]
      obtain ⟨buf₁, hstore, -, -⟩ := storeBytes_fits buf (arg ++ [0])
        (show sp - argRoom arg + (arg ++ [0]).length ≤ pgSize by simp only [List.length_append, List.length_singleton]; omega)
      rw [hstore, ok_bind]
      exact pushArgs_wraps (by omega) (by omega) (by omega) hlen.2 (by omega)
    · have hwrap := pushSp_wraps hsp h4 hlen.1 (by omega)
      rw [storeBytes, if_pos (by omega)]
      rfl

/-- An argument lies between the final and the first value of the pointer. -/
theorem argOffs_bounds : ∀ (argv : List (List UInt8)) {sp : Nat}, sp ≤ pgSize → sp % 4 = 0 → argsRoom argv ≤ sp →
    ∀ {i o : Nat} {arg : List UInt8}, (argOffs sp argv)[i]? = some o → argv[i]? = some arg →
      sp - argsRoom argv ≤ o ∧ o + (arg.length + 1) ≤ sp
  | arg :: argv, sp, hsp, h4, hroom, i, o, arg', ho, harg => by
    have hmod := argRoom_mod arg
    have hlen : arg.length + 1 ≤ argRoom arg := by simp only [argRoom]; omega
    rw [argsRoom_cons] at hroom ⊢
    rw [argOffs, pushSp_fits hsp h4 (by omega)] at ho
    cases i with
    | zero =>
      obtain rfl : sp - argRoom arg = o := by simpa using ho
      obtain rfl : arg = arg' := by simpa using harg
      omega
    | succ i =>
      obtain ⟨h1, h2⟩ := argOffs_bounds argv (i := i) (o := o) (show sp - argRoom arg ≤ pgSize by omega)
        (by omega) (by omega) (by simpa using ho) (by simpa using harg)
      omega

theorem length_argOffs : ∀ (argv : List (List UInt8)) (sp : Nat), (argOffs sp argv).length = argv.length
  | [], _ => rfl
  | arg :: argv, sp => by rw [argOffs, List.length_cons, length_argOffs argv, List.length_cons]

theorem length_leBytes (w : Nat) : (leBytes w).length = 4 := by simp [leBytes]

theorem length_flatMap_leBytes (ws : List Nat) : (ws.flatMap leBytes).length = ws.length * 4 := by
  simp [List.length_flatMap, length_leBytes]

end Stack

/-- The words that `exec` puts below the strings. -/
def ustackOf (base : Nat) (argv : List (List UInt8)) : List Nat :=
  [0xffffffff, argv.length, base + (pgSize - argsRoom argv - (argv.length + 1) * 4)] ++ (argOffs pgSize argv).map (base + ·) ++ [0]

/-- What stands in the buffer when `exec` commits. -/
structure Stacked (buf : Page) (base : Nat) (argv : List (List UInt8)) : Prop where
  words : Holds buf (pgSize - argsRoom argv - (3 + argv.length + 1) * 4) ((ustackOf base argv).flatMap leBytes)
  strings : ∀ (i : Nat) o arg, (argOffs pgSize argv)[i]? = some o → argv[i]? = some arg → Holds buf o (arg ++ [0])

section Push

variable {s s' : Kernel} {p : ProcIdx} {path : List UInt8} {argv : List (List UInt8)} {x : ArgLoop} {r : Int}

theorem execCommit_zero {elf : ElfHdr} {pd : PageDir} {sz sp base : Nat} (h : execCommit p path elf pd sz sp base s = .ok (r, s')) :
    r = 0 := by
  unfold execCommit at h
  split at h
  · cases h
  · obtain ⟨-, -, h⟩ := bind_eq_ok.1 h
    obtain ⟨⟨r', t⟩, -, h⟩ := bind_eq_ok.1 h
    dsimp only at h
    split at h
    · cases h
    · cases hold : (s.ptable p).pgdir with
      | none => rw [hold] at h; cases h
      | some old =>
        rw [hold] at h
        obtain ⟨m, -, h⟩ := bind_eq_ok.1 h
        cases h
        rfl

/-- An encoding that fits is built and committed. -/
theorem execPush_fits (p : ProcIdx) (path : List UInt8) (hx : x.Placed) (hargc : argv.length ≤ maxArg) (hfit : ArgsFit argv) : ∃ buf, Stacked buf x.base argv ∧
    execPush p path argv x = execCommit p path x.elf x.pgdir x.sz (pgSize - argsRoom argv - (3 + argv.length + 1) * 4) x.base
      (x.kernel.setProc p { x.kernel.ptable p with stackBuffer := buf }) := by
  have hlt := hx.lt
  have htop := hx.top
  unfold ArgsFit at hfit
  obtain ⟨buf₁, hpush, hargs, -⟩ := pushArgs_fits x.base argv 0 pgSize (x.kernel.ptable p).stackBuffer []
    (by omega) (le_refl pgSize) (by decide) (by omega)
  have hoffs : (argOffs pgSize argv).map (fun o => (x.base + o) % wordSize) = (argOffs pgSize argv).map (x.base + ·) := by
    refine List.map_congr_left fun o ho => Nat.mod_eq_of_lt ?_
    obtain ⟨i, hi, rfl⟩ := List.mem_iff_getElem.1 ho
    obtain ⟨-, hb⟩ := argOffs_bounds argv (le_refl pgSize) (by decide) (by omega) (List.getElem?_eq_getElem hi)
      (List.getElem?_eq_getElem (by rwa [length_argOffs] at hi))
    simp only [wordSize, kernBase] at *
    omega
  have hlen : ((ustackOf x.base argv).flatMap leBytes).length = (3 + argv.length + 1) * 4 := by
    rw [length_flatMap_leBytes]
    simp only [ustackOf, List.length_append, List.length_cons, List.length_nil, List.length_map, length_argOffs]
  obtain ⟨buf₂, hstore, hwords, hkeep⟩ := storeBytes_fits buf₁ ((ustackOf x.base argv).flatMap leBytes)
    (show pgSize - argsRoom argv - (3 + argv.length + 1) * 4 + _ ≤ pgSize by rw [hlen]; omega)
  refine ⟨buf₂, ⟨hwords, fun i o arg ho harg => ?_⟩, ?_⟩
  · -- the words end where the last string begins
    obtain ⟨hlo, -⟩ := argOffs_bounds argv (le_refl pgSize) (by decide) (by omega) ho harg
    exact (hargs i o arg ho harg).congr fun j hj _ => hkeep j (.inr (by rw [hlen]; omega))
  · have hustack : [0xffffffff, argv.length, (x.base + subWord (pgSize - argsRoom argv) ((argv.length + 1) * 4)) % wordSize] ++
        (argOffs pgSize argv).map (x.base + ·) ++ [0] = ustackOf x.base argv := by
      have hword : pgSize < wordSize := by decide
      rw [subWord_le (by omega) (by omega), Nat.mod_eq_of_lt (by simp only [wordSize, kernBase] at *; omega), ustackOf]
    unfold execPush
    rw [hpush, ok_bind]
    dsimp only
    rw [List.nil_append, hoffs, List.length_map, length_argOffs, hustack,
      subWord_le (by omega) (by simp only [pgSize, wordSize]; omega), hstore, ok_bind]
    simp only [Kernel.setProc, Function.update_self, Function.update_idem]

/-- One that does not fit leaves the buffer. -/
theorem execPush_wraps (hargc : argv.length < maxArg) (hlen : ∀ arg ∈ argv, arg.length < kernBase) (hfit : ¬ArgsFit argv) :
    execPush p path argv x = .error .overrun := by
  unfold execPush
  by_cases hroom : argsRoom argv ≤ pgSize
  · obtain ⟨buf, hpush, -⟩ := pushArgs_fits x.base argv 0 pgSize (x.kernel.ptable p).stackBuffer []
      (by omega) (le_refl pgSize) (by decide) hroom
    rw [hpush, ok_bind]
    dsimp only
    rw [storeBytes, if_pos]
    · rfl
    · rw [length_flatMap_leBytes]
      simp only [ArgsFit, List.nil_append, List.length_append, List.length_cons, List.length_nil, List.length_map,
        length_argOffs, subWord, wordSize, pgSize, maxArg] at *
      omega
  · rw [pushArgs_wraps (by omega) (le_refl pgSize) (by decide) hlen (by omega)]
    rfl

end Push

/-! ## No store outside the buffers -/

section Within

variable {s : Kernel} {p : ProcIdx} {path : List UInt8} {argv : List (List UInt8)}

/-- `exec` comes to the arguments, and then does not fail. -/
theorem exec_ne_of_execArgs {x : ArgLoop} (hx : execArgs p path s = .ok (.inr x)) (hargc : argv.length < maxArg)
    (hlen : ∀ arg ∈ argv, arg.length < kernBase) (s' : Kernel) : exec p path argv s ≠ .ok (-1, s') := by
  rw [exec_split, hx, ok_bind, Sum.elim_inr]
  intro h
  by_cases hfit : ArgsFit argv
  · obtain ⟨buf, -, hpush⟩ := execPush_fits p path (execArgs_ok hx) hargc.le hfit
    rw [hpush] at h
    cases execCommit_zero h
  · rw [execPush_wraps hargc hlen hfit] at h
    cases h

/-- `exec` fails or stays inside `stack_buffer`, `path` and `name` exactly when it does not come to the arguments, or the encoding fits in
a page, the path in `path` and its last component in `name`. -/
theorem exec_within_iff (hargc : argv.length < maxArg) (hlen : ∀ arg ∈ argv, arg.length < kernBase) :
    ((∃ s', exec p path argv s = .ok (-1, s')) ∨ ∀ w ∈ execStores p path argv s, w.Within) ↔
      ∀ x, execArgs p path s = .ok (.inr x) → ArgsFit argv ∧ path.length < 512 ∧ (lastName path).length < 16 := by
  constructor
  · intro h x hx
    rcases h with ⟨s', hs'⟩ | h
    · exact absurd hs' (exec_ne_of_execArgs hx hargc hlen s')
    · rw [execStores, hx] at h
      exact (pushStores_within hlen).1 h
  · intro h
    refine .inr ?_
    unfold execStores
    split
    · next x hx => exact (pushStores_within hlen).2 (h x hx)
    · simp

/-- On the machine with an executable under every name, `exec` comes to the arguments. -/
theorem execKernel_execArgs (path : List UInt8) : ∃ x, execArgs 0 path (execKernel 0) = .ok (.inr x) := by
  obtain ⟨s', hs'⟩ := execKernel_exec (v := 0) (by decide)
  rw [exec_split] at hs'
  obtain ⟨y, hy, hs'⟩ := bind_eq_ok.1 hs'
  cases y with
  | inl r =>
    cases hs'
    cases execArgs_ok hy
  | inr x => exact ⟨x, hy⟩

theorem exec_within_iff_small : (∃ x, execArgs 0 [0x66] (execKernel 0) = .ok (.inr x)) ∧
    ((∃ s', exec 0 [0x66] [[0x66], [0x61, 0x62]] (execKernel 0) = .ok (-1, s')) ∨
      ∀ w ∈ execStores 0 [0x66] [[0x66], [0x61, 0x62]] (execKernel 0), w.Within) :=
  ⟨execKernel_execArgs [0x66], (exec_within_iff (by decide) (by decide)).2 fun _ _ => by decide⟩

/-- A string of a page without its end. -/
def pageArg : List UInt8 := List.replicate pgSize 0x61

theorem pageArg_length : pageArg.length = pgSize := List.length_replicate

/-- An argument of a page and more is copied to where the pointer has wrapped. -/
theorem exec_leaves_buffer : (∀ s', exec 0 [0x66] [[0x66], pageArg] (execKernel 0) ≠ .ok (-1, s')) ∧
    ∃ w ∈ execStores 0 [0x66] [[0x66], pageArg] (execKernel 0), ¬w.Within := by
  obtain ⟨x, hx⟩ := execKernel_execArgs [0x66]
  constructor
  · exact exec_ne_of_execArgs hx (by decide) (by simp [pageArg_length, kernBase, pgSize])
  · refine ⟨⟨.stackBuffer, pushSp (pushSp pgSize [0x66]) pageArg, pageArg.length + 1⟩, ?_, ?_⟩
    · rw [execStores, hx]
      simp [pushStores, argStores]
    · rw [ExecStore.within_iff, pushSp, pageArg_length]
      decide

end Within

/-! ## What the program finds -/

/-- A byte of a page. -/
def Page.byte (pg : Page) (n : Nat) : UInt8 := if h : n < pgSize then pg ⟨n, h⟩ else 0

/-- The `uint` at an address of the page placed at `base`. -/
def wordAt (pg : Page) (base a : Nat) : Option Nat :=
  if base ≤ a ∧ a + 4 ≤ base + pgSize then some (le32 pg.byte (a - base)) else none

/-- The string at an address of that page. -/
def stringAt (pg : Page) (base a : Nat) : Option (List UInt8) :=
  if base ≤ a ∧ a < base + pgSize then upTo 0 pg (a - base) else none

/-- Two ranges, each a start and a length, with nothing in common. -/
def Apart (x y : Nat × Nat) : Prop := x.1 + x.2 ≤ y.1 ∨ y.1 + y.2 ≤ x.1

/-- Read from `esp`, the page placed at `base` is a frame of `main` with these arguments. -/
structure Decodes (pg : Page) (base esp : Nat) (argv : List (List UInt8)) : Prop where
  aligned : esp % 4 = 0
  ret : wordAt pg base esp = some 0xffffffff
  argc : wordAt pg base (esp + 4) = some argv.length
  args : ∃ (v : Nat) (addrs : List Nat), wordAt pg base (esp + 8) = some v ∧ addrs.length = argv.length ∧
    (∀ (i : Nat) a, addrs[i]? = some a → wordAt pg base (v + 4 * i) = some a ∧ base ≤ a ∧ a < base + pgSize ∧
      stringAt pg base a = argv[i]?) ∧
    wordAt pg base (v + 4 * argv.length) = some 0 ∧
    ((esp, 12) :: (v, 4 * (argv.length + 1)) :: addrs.zip (argv.map (·.length + 1))).Pairwise Apart

section Decode

variable {base : Nat} {argv : List (List UInt8)} {pg : Page}

theorem le32_leBytes {off w : Nat} (h : Holds pg off (leBytes w)) (hw : w < wordSize) :
    off + 4 ≤ pgSize ∧ le32 pg.byte off = w := by
  obtain ⟨h0, e0⟩ := h 0 _ rfl
  obtain ⟨h1, e1⟩ := h 1 _ rfl
  obtain ⟨h2, e2⟩ := h 2 _ rfl
  obtain ⟨h3, e3⟩ := h 3 _ rfl
  refine ⟨by omega, ?_⟩
  simp only [le32, le16, Page.byte, Nat.add_assoc, dif_pos h1, dif_pos h2, dif_pos h3, Nat.reduceAdd]
  rw [Nat.add_zero] at h0
  simp only [Nat.add_zero] at e0
  rw [dif_pos h0, e0, e1, e2, e3]
  simp only [UInt8.toNat_ofNat', wordSize] at *
  omega

/-- A word of `ustack`, by its number. -/
theorem Stacked.word (h : Stacked pg base argv) {esp : Nat} (hesp : esp = base + (pgSize - argsRoom argv - (3 + argv.length + 1) * 4))
    {i w : Nat} (hi : (ustackOf base argv)[i]? = some w) (hw : w < wordSize) : wordAt pg base (esp + 4 * i) = some w := by
  have hheld := h.words.flatMap length_leBytes hi
  obtain ⟨hle, hread⟩ := le32_leBytes hheld hw
  rw [wordAt, if_pos (by omega), ← hread]
  congr 2
  omega

/-- The ranges of the strings. -/
def argSpans (base sp : Nat) (argv : List (List UInt8)) : List (Nat × Nat) :=
  ((argOffs sp argv).map (base + ·)).zip (argv.map (·.length + 1))

theorem argSpans_bounds (base : Nat) (argv : List (List UInt8)) {sp : Nat} (hsp : sp ≤ pgSize) (h4 : sp % 4 = 0) (hroom : argsRoom argv ≤ sp) :
    ∀ x ∈ argSpans base sp argv, base + (sp - argsRoom argv) ≤ x.1 ∧ x.1 + x.2 ≤ base + sp := by
  intro x hx
  obtain ⟨i, hi⟩ := List.mem_iff_getElem?.1 hx
  obtain ⟨ha, hl⟩ := List.getElem?_zip_eq_some.1 hi
  rw [List.getElem?_map, Option.map_eq_some_iff] at ha hl
  obtain ⟨o, ho, hxo⟩ := ha
  obtain ⟨arg, harg, hxl⟩ := hl
  obtain ⟨h1, h2⟩ := argOffs_bounds argv hsp h4 hroom ho harg
  omega

theorem argSpans_apart (base : Nat) : ∀ {argv : List (List UInt8)} {sp : Nat}, sp ≤ pgSize → sp % 4 = 0 → argsRoom argv ≤ sp →
    (argSpans base sp argv).Pairwise Apart
  | [], _, _, _, _ => List.Pairwise.nil
  | arg :: argv, sp, hsp, h4, hroom => by
    have hmod := argRoom_mod arg
    rw [argsRoom_cons] at hroom
    rw [argSpans, argOffs, pushSp_fits hsp h4 (by omega)]
    constructor
    · intro x hx
      have := argSpans_bounds base argv (show sp - argRoom arg ≤ pgSize by omega) (by omega) (by omega) x hx
      exact .inr this.2
    · exact argSpans_apart base (by omega) (by omega) (by omega)

/-- The page that `exec` has built decodes to the arguments. -/
theorem Stacked.decodes (h : Stacked pg base argv) (hfit : ArgsFit argv) (hbase : base + pgSize < kernBase) (hal : base % pgSize = 0)
    (hnul : ∀ arg ∈ argv, 0 ∉ arg) :
    Decodes pg base (base + (pgSize - argsRoom argv - (3 + argv.length + 1) * 4)) argv := by
  have hmod := argsRoom_mod argv
  have hword : kernBase < wordSize := by decide
  have hroom : argsRoom argv ≤ pgSize := by unfold ArgsFit at hfit; omega
  have haddr : ∀ (i : Nat) a, ((argOffs pgSize argv).map (base + ·))[i]? = some a → (ustackOf base argv)[3 + i]? = some a ∧
      ∃ o arg, argv[i]? = some arg ∧ (argOffs pgSize argv)[i]? = some o ∧ a = base + o := by
    intro i a ha
    obtain ⟨o, ho, rfl⟩ := Option.map_eq_some_iff.1 (List.getElem?_map ▸ ha)
    have hi : i < argv.length := by
      have := (List.getElem?_eq_some_iff.1 ho).1
      rwa [length_argOffs] at this
    refine ⟨?_, o, argv[i], List.getElem?_eq_getElem hi, ho, rfl⟩
    rw [ustackOf, List.append_assoc, List.getElem?_append_right (by simp), List.getElem?_append_left (by simp [length_argOffs]; omega)]
    simpa using ha
  unfold ArgsFit at hfit
  constructor
  · simp only [pgSize] at *; omega
  · exact h.word (i := 0) rfl rfl (by decide)
  · exact h.word (i := 1) rfl rfl (by omega)
  · refine ⟨base + (pgSize - argsRoom argv - (argv.length + 1) * 4), (argOffs pgSize argv).map (base + ·),
      h.word (i := 2) rfl rfl (by omega), by simp [length_argOffs], ?_, ?_, ?_⟩
    · intro i a ha
      obtain ⟨hw, o, arg, harg, ho, rfl⟩ := haddr i a ha
      obtain ⟨hlo, hhi⟩ := argOffs_bounds argv (le_refl pgSize) (by decide) hroom ho harg
      refine ⟨?_, by omega, by omega, ?_⟩
      · rw [← h.word rfl hw (by omega)]
        congr 1
        omega
      · rw [stringAt, if_pos (by omega), Nat.add_sub_cancel_left, harg]
        exact (h.strings i o arg ho harg).upTo (hnul arg (List.mem_of_getElem? harg))
    · -- the zero after the addresses is the last word
      have hlast : (ustackOf base argv)[3 + argv.length]? = some 0 := by
        have hlen : ([0xffffffff, argv.length, base + (pgSize - argsRoom argv - (argv.length + 1) * 4)] ++
            (argOffs pgSize argv).map (base + ·)).length = 3 + argv.length := by
          rw [List.length_append, List.length_map, length_argOffs]
          rfl
        rw [ustackOf, ← hlen]
        exact List.getElem?_concat_length
      rw [← h.word rfl hlast (by decide)]
      congr 1
      omega
    · have hb := argSpans_bounds base argv (le_refl pgSize) (by decide) hroom
      refine List.Pairwise.cons ?_ (List.Pairwise.cons ?_ (argSpans_apart base (le_refl _) (by decide) hroom))
      · intro x hx
        rcases List.mem_cons.1 hx with rfl | hx
        · left
          simp only
          omega
        · left
          have := hb x hx
          simp only
          omega
      · intro x hx
        left
        have := hb x hx
        simp only
        omega

end Decode

section Main

variable {s : Kernel} {p : ProcIdx} {path : List UInt8} {argv : List (List UInt8)}

/-- Arguments that fit are built and committed. -/
theorem exec_pushes {x : ArgLoop} (hx : execArgs p path s = .ok (.inr x)) (hargc : argv.length < maxArg) (hfit : ArgsFit argv)
    (hnul : ∀ arg ∈ argv, 0 ∉ arg) : ∃ sp buf, Decodes buf (x.sz - pgSize) ((x.base + sp) % wordSize) argv ∧
      exec p path argv s = execCommit p path x.elf x.pgdir x.sz sp x.base
        (x.kernel.setProc p { x.kernel.ptable p with stackBuffer := buf }) := by
  have hplaced : x.Placed := execArgs_ok hx
  have htop := hplaced.top
  have hlt := hplaced.lt
  obtain ⟨buf, hbuf, hpush⟩ := execPush_fits p path hplaced hargc.le hfit
  refine ⟨_, buf, ?_, by rw [exec_split, hx, ok_bind, Sum.elim_inr, hpush]⟩
  rw [← htop, Nat.add_sub_cancel, Nat.mod_eq_of_lt (by simp only [kernBase, wordSize] at *; omega)]
  exact hbuf.decodes hfit (by omega) hplaced.aligned hnul

/-- Once `exec` has come to arguments that fit, it builds a stack page that decodes to them and sets `esp` to its frame; that page
is in `stack_buffer` when it returns. -/
theorem exec_stack_decodes (hargc : argv.length < maxArg) (hfit : ArgsFit argv) (hnul : ∀ arg ∈ argv, 0 ∉ arg) :
    (∀ x, execArgs p path s = .ok (.inr x) → ∃ sp buf, Decodes buf (x.sz - pgSize) ((x.base + sp) % wordSize) argv ∧
      exec p path argv s = execCommit p path x.elf x.pgdir x.sz sp x.base
        (x.kernel.setProc p { x.kernel.ptable p with stackBuffer := buf })) ∧
    ∀ s', exec p path argv s = .ok (0, s') →
      Decodes (s'.ptable p).stackBuffer ((s'.ptable p).sz - pgSize) (s'.ptable p).esp argv := by
  refine ⟨fun x hx => exec_pushes hx hargc hfit hnul, fun s' hs' => ?_⟩
  cases hx : execArgs p path s with
  | error e => rw [exec_split, hx] at hs'; cases hs'
  | ok y =>
    cases y with
    | inl r =>
      have hr := execArgs_ok hx
      rw [exec_split, hx] at hs'
      cases hs'
      cases hr
    | inr x =>
      have hlt := ArgLoop.Placed.lt (execArgs_ok hx)
      obtain ⟨sp, buf, hdec, hexec⟩ := exec_pushes hx hargc hfit hnul
      rw [hexec] at hs'
      obtain ⟨name, path', r, t, old, m, hout, hr, -, -, rfl⟩ := execCommit_ok hs'
      rw [swapOutFunc_eq] at hout
      obtain ⟨f, list, sw, pd, pte, l, -, -, -, -, rfl⟩ := swapOutWith_user hout hr (by omega)
      simpa using hdec

theorem exec_stack_decodes_small : ∃ x, execArgs 0 [0x66] (execKernel 0) = .ok (.inr x) ∧
    ∃ sp buf, Decodes buf (x.sz - pgSize) ((x.base + sp) % wordSize) [[0x66], [], [0x61, 0x62]] ∧
      exec 0 [0x66] [[0x66], [], [0x61, 0x62]] (execKernel 0) = execCommit 0 [0x66] x.elf x.pgdir x.sz sp x.base
        (x.kernel.setProc 0 { x.kernel.ptable 0 with stackBuffer := buf }) := by
  obtain ⟨x, hx⟩ := execKernel_execArgs [0x66]
  exact ⟨x, hx, (exec_stack_decodes (by decide) (by decide) (by decide)).1 x hx⟩

end Main

end DemandPaging
