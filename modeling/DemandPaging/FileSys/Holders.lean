/-
Who refers to an entry of the inode cache: the open files and the current directories. Every call keeps
each reference count equal to the number of these holders; a page fault that loads a page from the
program's file does not, for it never gives back the reference that it takes.
-/
import DemandPaging.FileSys.Refs
import DemandPaging.FileSys.Mkfs
import DemandPaging.Lib.Tally

namespace DemandPaging.FileSys

open Function Bytes Outcome Tally

/-! ## Holders -/

/-- An open file of type `FD_INODE` holds its inode. -/
def File.holds (ff : File) : InodeIdx → Nat := if ff.type = .inode ∧ 0 < ff.ref then one ff.ip else 0

/-- A process holds its current directory. -/
def Task.holds : Option Task → InodeIdx → Nat
  | some t => one t.cwd
  | none => 0

/-- The number of open files and current directories that point to an entry. -/
def Sys.holders (s : Sys) : InodeIdx → Nat := ∑ f, (s.ftable f).holds + ∑ p, Task.holds (s.task p)

/-- The references are those of the holders and, inside a call, those `K` that the call has. -/
structure Exact (K : InodeIdx → Nat) (s : Sys) : Prop where
  refs : RefsAre (s.holders + K) s.fs
  closed : ∀ f, (s.ftable f).ref = 0 → (s.ftable f).type = .none

variable {K : InodeIdx → Nat} {s s' : Sys}

theorem holders_setTask {p : ProcIdx} {t : Option Task} :
    Sys.holders { s with task := update s.task p t } + Task.holds (s.task p) = s.holders + Task.holds t := by
  have := sum_update Task.holds s.task p t
  simp only [Sys.holders]
  rw [add_assoc, this, add_assoc]

theorem holders_setFile {f : FileIdx} {ff : File} :
    Sys.holders { s with ftable := update s.ftable f ff } + (s.ftable f).holds = s.holders + ff.holds := by
  have := sum_update File.holds s.ftable f ff
  simp only [Sys.holders]
  rw [add_right_comm, this, add_right_comm]

theorem holders_task {p : ProcIdx} {t : Task} (h : s.task p = some t) : ∃ H, s.holders = H + one t.cwd := by
  have := holders_setTask (s := s) (p := p) (t := none)
  rw [h] at this
  exact ⟨_, by rw [← add_zero s.holders]; exact this.symm⟩

/-! ## Parts of calls -/

theorem onFs_ok {α : Type} {x : FsM α} {a : α} : onFs x s = .ok (a, s') ↔ ∃ fs, x s.fs = .ok (a, fs) ∧ s' = { s with fs } := by
  unfold onFs
  cases x s.fs with
  | error e => exact ⟨fun h => (nomatch h), fun ⟨_, h, _⟩ => (nomatch h)⟩
  | ok p =>
    refine ⟨fun h => ?_, fun ⟨fs, h, h'⟩ => ?_⟩
    · cases h
      exact ⟨_, rfl, rfl⟩
    · cases h
      rw [h']
      rfl

theorem curproc_ok {p : ProcIdx} {t : Task} (h : curproc p s = .ok (t, s')) : s.task p = some t ∧ s' = s := by
  unfold curproc at h
  split at h
  · next ht =>
    cases h
    exact ⟨ht, rfl⟩
  · cases h

/-- A part that works on the file system with the caller's references. -/
theorem Exact.onFs {α : Type} {x : FsM α} {a : α} {M : InodeIdx → Nat} (hs : Exact K s) {L : α → InodeIdx → Nat}
    (hx : Counted (s.holders + K) x L) (hrun : onFs x s = .ok (a, s')) (hL : L a = s.holders + M) :
    Exact M s' ∧ s'.task = s.task ∧ s'.ftable = s.ftable := by
  obtain ⟨fs, hx', rfl⟩ := onFs_ok.1 hrun
  have := hx.of_ok hs.refs hx'
  rw [hL] at this
  exact ⟨⟨this, hs.closed⟩, rfl, rfl⟩

/-- A part that uses the current directory. -/
theorem Exact.onCwd {α : Type} {x : FsM α} {a : α} {p : ProcIdx} {t : Task} {L : α → InodeIdx → Nat} (hs : Exact 0 s)
    (ht : s.task p = some t) (hx : ∀ H, Counted (H + one t.cwd) x fun a => H + one t.cwd + L a) (hrun : FileSys.onFs x s = .ok (a, s')) :
    Exact (L a) s' ∧ s'.task = s.task ∧ s'.ftable = s.ftable := by
  obtain ⟨H, hH⟩ := holders_task ht
  refine hs.onFs (L := fun a => H + one t.cwd + L a) ?_ hrun (by rw [hH])
  rw [hH, add_zero]
  exact hx H

/-- References move between the call and a holder that is replaced. -/
theorem exchange {H H' a b K K' : InodeIdx → Nat} (hH : H' + a = H + b) (hK : a + K = b + K') : H + K = H' + K' := by
  funext i
  have h1 := congrFun hH i
  have h2 := congrFun hK i
  simp only [Pi.add_apply] at *
  omega

theorem Exact.setTask {p : ProcIdx} {t : Option Task} {K' : InodeIdx → Nat} (hs : Exact K s)
    (h : Task.holds (s.task p) + K = Task.holds t + K') (hrun : FileSys.setTask p t s = .ok ((), s')) : Exact K' s' := by
  cases hrun
  refine ⟨?_, hs.closed⟩
  have hrefs := hs.refs
  rw [exchange holders_setTask h] at hrefs
  exact hrefs

theorem Exact.setFile {f : FileIdx} {g : File → File} {K' : InodeIdx → Nat} (hs : Exact K s)
    (h : (s.ftable f).holds + K = (g (s.ftable f)).holds + K') (hc : (g (s.ftable f)).ref = 0 → (g (s.ftable f)).type = .none)
    (hrun : FileSys.setFile f g s = .ok ((), s')) : Exact K' s' := by
  cases hrun
  refine ⟨?_, fun k hk => ?_⟩
  · have hrefs := hs.refs
    rw [exchange holders_setFile h] at hrefs
    exact hrefs
  · by_cases hkf : k = f
    · subst hkf
      simp only [update_self] at hk ⊢
      exact hc hk
    · simp only [update_of_ne hkf] at hk ⊢
      exact hs.closed k hk

theorem File.holds_of_none {ff : File} (h : ff.type = .none) : ff.holds = 0 := if_neg (by simp [h])

theorem File.holds_congr {ff ff' : File} (ht : ff'.type = ff.type) (hip : ff'.ip = ff.ip) (hr : 0 < ff'.ref ↔ 0 < ff.ref) :
    ff'.holds = ff.holds := by
  simp only [File.holds, ht, hip, hr]

/-- `filealloc` gives out a file that holds nothing yet. -/
theorem Exact.filealloc {r : Option FileIdx} (hs : Exact K s) (hrun : filealloc s = .ok (r, s')) :
    Exact K s' ∧ (∀ g, (s.ftable g).ref ≠ 0 → s'.ftable g = s.ftable g) ∧
      ∀ f, r = some f → (s'.ftable f).ref = 1 ∧ (s'.ftable f).type = .none := by
  unfold FileSys.filealloc at hrun
  obtain ⟨s₀, s₁, hget, h1⟩ := bind_ok.1 hrun
  cases hget
  generalize hf : (List.finRange nFile).find? _ = fo at h1
  cases fo with
  | some f =>
    obtain ⟨_, s₂, hset, h2⟩ := bind_ok.1 h1
    cases h2
    have href : (s.ftable f).ref = 0 := by simpa using List.find?_some hf
    have hty := hs.closed f href
    refine ⟨hs.setFile ?_ (by simp) hset, ?_, fun g hg => ?_⟩
    · rw [File.holds_of_none hty, File.holds_of_none (by simpa using hty)]
    · cases hset
      exact fun g hg => update_of_ne (by rintro rfl; exact hg href) ..
    · cases hg
      cases hset
      simp [hty]
  | none =>
    cases h1
    exact ⟨hs, fun _ _ => rfl, fun f hf => by cases hf⟩

theorem Exact.filedup {f : FileIdx} (hs : Exact K s) (hrun : filedup f s = .ok ((), s')) : Exact K s' ∧ s'.task = s.task := by
  unfold FileSys.filedup at hrun
  obtain ⟨s₀, s₁, hget, h1⟩ := bind_ok.1 hrun
  cases hget
  split at h1
  · obtain ⟨fs, h, -⟩ := onFs_ok.1 h1
    cases h
  · next hpos =>
    have hsame : File.holds { s.ftable f with ref := (s.ftable f).ref + 1 } = (s.ftable f).holds :=
      File.holds_congr rfl rfl (by simp only; omega)
    refine ⟨hs.setFile (by rw [hsame]) (by simp) h1, ?_⟩
    cases h1; rfl

/-- `fileclose` drops a reference to the inode with the last reference to the file. -/
theorem Exact.fileclose {f : FileIdx} (hs : Exact K s) (hrun : fileclose f s = .ok ((), s')) : Exact K s' ∧ s'.task = s.task := by
  unfold FileSys.fileclose at hrun
  obtain ⟨s₀, s₁, hget, h1⟩ := bind_ok.1 hrun
  cases hget
  split at h1
  · obtain ⟨fs, h, -⟩ := onFs_ok.1 h1
    cases h
  split at h1
  · next hpos hmore =>
    have hsame : File.holds { s.ftable f with ref := (s.ftable f).ref - 1 } = (s.ftable f).holds :=
      File.holds_congr rfl rfl (by simp only; omega)
    refine ⟨hs.setFile (by rw [hsame]) (by simp only; omega) h1, ?_⟩
    cases h1; rfl
  · next hpos hlast =>
    obtain ⟨_, s₁, hset, h2⟩ := bind_ok.1 h1
    have htask : s₁.task = s.task := by cases hset; rfl
    have hnone : File.holds { s.ftable f with ref := 0, type := .none } = 0 := File.holds_of_none rfl
    split at h2
    · next hty =>
      -- the reference of the file is the call's until `iput` drops it
      have hs₁ : Exact (K + one (s.ftable f).ip) s₁ := hs.setFile (by
        rw [hnone, File.holds, if_pos ⟨hty, by omega⟩, zero_add, add_comm]) (by simp) hset
      obtain ⟨h, ht, -⟩ := hs₁.onFs (L := fun _ => s₁.holders + K) (M := K) ((iput_counted _).pre fun s h => by rwa [add_assoc]) h2 rfl
      exact ⟨h, ht.trans htask⟩
    · next hty =>
      cases h2
      refine ⟨hs.setFile ?_ (by simp) hset, htask⟩
      rw [hnone, File.holds, if_neg (by simp [hty])]

theorem Exact.fdalloc {p : ProcIdx} {f : FileIdx} {r : Option Fd} (hs : Exact K s) (hrun : fdalloc p f s = .ok (r, s')) :
    Exact K s' ∧ s'.ftable = s.ftable := by
  unfold FileSys.fdalloc at hrun
  obtain ⟨t, s₁, hp, h1⟩ := bind_ok.1 hrun
  obtain ⟨ht, rfl⟩ := curproc_ok hp
  generalize (List.finRange nOFile).find? _ = fd at h1
  cases fd with
  | some fd =>
    obtain ⟨_, s₂, hset, h2⟩ := bind_ok.1 h1
    cases h2
    refine ⟨hs.setTask (by rw [ht]; rfl) hset, ?_⟩
    cases hset; rfl
  | none =>
    cases h1
    exact ⟨hs, rfl⟩

/-- A reference of the call is given back. -/
theorem Exact.iput {i : InodeIdx} (hs : Exact (K + one i) s) (hrun : FileSys.onFs (iput i) s = .ok ((), s')) :
    Exact K s' ∧ s'.task = s.task ∧ s'.ftable = s.ftable :=
  hs.onFs (L := fun _ => s.holders + K) (M := K) ((iput_counted i).pre fun s h => by rwa [add_assoc]) hrun rfl

/-- A part that leaves the entries as they are. -/
theorem Exact.steady {α : Type} {x : FsM α} {a : α} (hs : Exact K s) (hx : Steady x) (hrun : FileSys.onFs x s = .ok (a, s')) :
    Exact K s' ∧ s'.task = s.task ∧ s'.ftable = s.ftable :=
  hs.onFs (L := fun _ => s.holders + K) hx.counted hrun rfl

/-! ## Calls -/

variable {p : ProcIdx}

theorem sysOpen_exact {path : List UInt8} {omode : Nat} (hs : Exact 0 s) (hrun : sysOpen p path omode s = .ok ((), s')) : Exact 0 s' := by
  unfold sysOpen at hrun
  obtain ⟨t, s₁, hp, h1⟩ := bind_ok.1 hrun
  obtain ⟨ht, rfl⟩ := curproc_ok hp
  obtain ⟨r, s₂, hopen, h2⟩ := bind_ok.1 h1
  obtain ⟨hs₂, -, -⟩ := hs.onCwd ht (fun H => openInode_counted t.cwd path omode) hopen
  cases r with
  | none =>
    cases h2
    exact hs₂
  | some ip =>
    have hs₂ : Exact (0 + one ip) s₂ := by rw [zero_add]; exact hs₂
    obtain ⟨r, s₃, hfa, h3⟩ := bind_ok.1 h2
    obtain ⟨hs₃, -, hnew⟩ := hs₂.filealloc hfa
    cases r with
    | none => exact (hs₃.iput h3).1
    | some f =>
      obtain ⟨r, s₄, hfd, h4⟩ := bind_ok.1 h3
      obtain ⟨hs₄, hft⟩ := hs₃.fdalloc hfd
      cases r with
      | none =>
        obtain ⟨_, s₅, hclose, h5⟩ := bind_ok.1 h4
        exact ((hs₄.fileclose hclose).1.iput h5).1
      | some fd =>
        obtain ⟨href, hty⟩ := hnew f rfl
        rw [← hft] at href hty
        refine hs₄.setFile ?_ (by simp [href]) h4
        rw [File.holds_of_none hty, File.holds, if_pos (by simp [href]), zero_add, zero_add, add_zero]

/-- A call that is a part of `fs.c` run from the current directory. -/
theorem onCwd_exact {x : InodeIdx → FsM Unit} (hs : Exact 0 s) (hx : ∀ cwd H, Counted (H + one cwd) (x cwd) fun _ => H + one cwd)
    (hrun : (curproc p >>= fun t => onFs (x t.cwd)) s = .ok ((), s')) : Exact 0 s' := by
  obtain ⟨t, s₁, hp, h1⟩ := bind_ok.1 hrun
  obtain ⟨ht, rfl⟩ := curproc_ok hp
  exact (hs.onCwd (L := fun _ => 0) ht (fun H => by simpa using hx t.cwd H) h1).1

theorem putNew_counted (H : InodeIdx → Nat) (r : Option InodeIdx) : Counted (H + given id r) (putNew r) fun _ => H := by
  cases r with
  | none => exact .pure fun _ h => h
  | some ip => exact iput_counted ip

theorem sysChdir_exact {path : List UInt8} (hs : Exact 0 s) (hrun : sysChdir p path s = .ok ((), s')) : Exact 0 s' := by
  unfold sysChdir at hrun
  obtain ⟨t, s₁, hp, h1⟩ := bind_ok.1 hrun
  obtain ⟨ht, rfl⟩ := curproc_ok hp
  obtain ⟨r, s₂, hch, h2⟩ := bind_ok.1 h1
  obtain ⟨fs, hfs, rfl⟩ := onFs_ok.1 hch
  obtain ⟨H, hH⟩ := holders_task ht
  have hrefs := (chdirInode_counted t.cwd path).of_ok (by have := hs.refs; rwa [hH, add_zero] at this) hfs
  cases r with
  | none =>
    cases h2
    refine ⟨?_, hs.closed⟩
    show RefsAre (s₁.holders + 0) fs
    rw [hH, add_zero]
    exact hrefs
  | some ip =>
    cases h2
    refine ⟨?_, hs.closed⟩
    have hset := holders_setTask (s := s₁) (p := p) (t := some { t with cwd := ip })
    rw [ht, hH] at hset
    have hnew : Sys.holders { s₁ with task := update s₁.task p (some { t with cwd := ip }) } = H + one ip :=
      add_right_cancel (hset.trans (add_right_comm _ _ _))
    show RefsAre (Sys.holders { s₁ with task := update s₁.task p (some { t with cwd := ip }) } + 0) fs
    rw [hnew, add_zero]
    exact hrefs

theorem sysClose_exact {fd : Fd} (hs : Exact 0 s) (hrun : sysClose p fd s = .ok ((), s')) :
    Exact 0 s' := by
  unfold sysClose at hrun
  obtain ⟨t, s₁, hp, h1⟩ := bind_ok.1 hrun
  obtain ⟨ht, rfl⟩ := curproc_ok hp
  generalize t.ofile fd = fo at h1
  cases fo with
  | none =>
    cases h1
    exact hs
  | some f =>
    obtain ⟨_, s₂, hset, h2⟩ := bind_ok.1 h1
    exact ((hs.setTask (by rw [ht]; rfl) hset).fileclose h2).1

theorem argfd_ok {fd : Fd} {r : Option FileIdx} (hrun : argfd p fd s = .ok (r, s')) : s' = s := by
  unfold argfd at hrun
  obtain ⟨t, s₁, hp, h1⟩ := bind_ok.1 hrun
  obtain ⟨-, rfl⟩ := curproc_ok hp
  cases h1
  rfl

theorem sysDup_exact {fd : Fd} (hs : Exact 0 s) (hrun : sysDup p fd s = .ok ((), s')) : Exact 0 s' := by
  unfold sysDup at hrun
  obtain ⟨r, s₁, ha, h1⟩ := bind_ok.1 hrun
  obtain rfl := argfd_ok ha
  cases r with
  | none =>
    cases h1
    exact hs
  | some f =>
    obtain ⟨r, s₂, hfd, h2⟩ := bind_ok.1 h1
    obtain ⟨hs₂, -⟩ := hs.fdalloc hfd
    cases r with
    | none =>
      cases h2
      exact hs₂
    | some _ => exact (hs₂.filedup h2).1

/-- The offset of a file says nothing about its holders. -/
theorem Exact.setOff {f : FileIdx} {off : File → Nat} (hs : Exact K s)
    (hrun : FileSys.setFile f (fun ff => { ff with off := off ff }) s = .ok ((), s')) : Exact K s' :=
  hs.setFile rfl (fun h => hs.closed f h) hrun

theorem sysRead_exact {fd : Fd} {n : Nat} {dev : Option (List UInt8)} (hs : Exact 0 s) (hrun : sysRead p fd n dev s = .ok ((), s')) :
    Exact 0 s' := by
  unfold sysRead at hrun
  obtain ⟨r, s₁, ha, h1⟩ := bind_ok.1 hrun
  obtain rfl := argfd_ok ha
  cases r with
  | none =>
    cases h1
    exact hs
  | some f =>
    simp only [fileread] at h1
    obtain ⟨_, s₂, hget, h2⟩ := bind_ok.1 h1
    cases hget
    split at h2
    · cases h2
      exact hs
    generalize (s₁.ftable f).type = ty at h2
    cases ty with
    | none =>
      obtain ⟨fs, h, -⟩ := onFs_ok.1 h2
      cases h
    | pipe =>
      cases h2
      exact hs
    | inode =>
      obtain ⟨_, s₃, hlock, h3⟩ := bind_ok.1 h2
      obtain ⟨r, s₄, hread, h4⟩ := bind_ok.1 h3
      have hs₄ := ((hs.steady (steady_ilock _) hlock).1.steady (steady_readInode _ _ _ _) hread).1
      cases r with
      | none =>
        cases h4
        exact hs₄
      | some bs => exact hs₄.setOff h4

theorem sysWrite_exact {fd : Fd} {src : List UInt8} {dev : Option Nat} (hs : Exact 0 s) (hrun : sysWrite p fd src dev s = .ok ((), s')) :
    Exact 0 s' := by
  unfold sysWrite at hrun
  obtain ⟨r, s₁, ha, h1⟩ := bind_ok.1 hrun
  obtain rfl := argfd_ok ha
  cases r with
  | none =>
    cases h1
    exact hs
  | some f =>
    simp only [filewrite] at h1
    obtain ⟨_, s₂, hget, h2⟩ := bind_ok.1 h1
    cases hget
    split at h2
    · cases h2
      exact hs
    generalize (s₁.ftable f).type = ty at h2
    cases ty with
    | none =>
      obtain ⟨fs, h, -⟩ := onFs_ok.1 h2
      cases h
    | pipe =>
      cases h2
      exact hs
    | inode =>
      obtain ⟨_, s₃, hlock, h3⟩ := bind_ok.1 h2
      obtain ⟨r, s₄, hwrite, h4⟩ := bind_ok.1 h3
      have hs₄ := ((hs.steady (steady_ilock _) hlock).1.steady (steady_writeInode _ _ _ _) hwrite).1
      cases r with
      | none =>
        cases h4
        exact hs₄
      | some r =>
        obtain ⟨_, s₅, hoff, h5⟩ := bind_ok.1 h4
        split at h5
        · obtain ⟨fs, h, -⟩ := onFs_ok.1 h5
          cases h
        · cases h5
          exact hs₄.setOff hoff

theorem sysFstat_exact {fd : Fd} (hs : Exact 0 s) (hrun : sysFstat p fd s = .ok ((), s')) : Exact 0 s' := by
  unfold sysFstat at hrun
  obtain ⟨r, s₁, ha, h1⟩ := bind_ok.1 hrun
  obtain rfl := argfd_ok ha
  cases r with
  | none =>
    cases h1
    exact hs
  | some f =>
    simp only [filestat] at h1
    obtain ⟨_, s₂, hget, h2⟩ := bind_ok.1 h1
    cases hget
    split at h2
    · exact (hs.steady (steady_ilock _) h2).1
    · cases h2
      exact hs

/-- A file that holds nothing becomes one end of a pipe. -/
theorem Exact.setPipe {f : FileIdx} {rd wr : Bool} (hs : Exact K s) (hf : (s.ftable f).ref ≠ 0 ∧ (s.ftable f).type ≠ .inode)
    (hrun : FileSys.setFile f (fun ff => { ff with type := .pipe, readable := rd, writable := wr }) s = .ok ((), s')) : Exact K s' := by
  refine hs.setFile ?_ (by simp [hf.1]) hrun
  rw [File.holds, if_neg (by simp [hf.2]), File.holds, if_neg (by simp)]

theorem Exact.pipealloc {mem : Bool} {r : Option (FileIdx × FileIdx)} (hs : Exact K s) (hrun : pipealloc mem s = .ok (r, s')) :
    Exact K s' := by
  unfold FileSys.pipealloc at hrun
  obtain ⟨r0, s₁, ha, h1⟩ := bind_ok.1 hrun
  obtain ⟨hs₁, -, hf0⟩ := hs.filealloc ha
  cases r0 with
  | none =>
    cases h1
    exact hs₁
  | some f0 =>
    obtain ⟨r1, s₂, hb, h2⟩ := bind_ok.1 h1
    obtain ⟨hs₂, hkeep, hf1⟩ := hs₁.filealloc hb
    cases r1 with
    | none =>
      obtain ⟨_, s₃, hc, h3⟩ := bind_ok.1 h2
      cases h3
      exact (hs₂.fileclose hc).1
    | some f1 =>
      obtain ⟨href0, hty0⟩ := hf0 f0 rfl
      obtain ⟨href1, hty1⟩ := hf1 f1 rfl
      have hsame := hkeep f0 (by rw [href0]; decide)
      rw [← hsame] at href0 hty0
      cases mem with
      | true =>
        obtain ⟨_, s₃, hset, h3⟩ := bind_ok.1 h2
        obtain ⟨_, s₄, hset', h4⟩ := bind_ok.1 h3
        cases h4
        refine (hs₂.setPipe ⟨by rw [href0]; decide, by rw [hty0]; decide⟩ hset).setPipe ?_ hset'
        cases hset
        by_cases h01 : f1 = f0
        · simp [h01, href0]
        · simp [h01, href1, hty1]
      | false =>
        obtain ⟨_, s₃, hc, h3⟩ := bind_ok.1 h2
        obtain ⟨_, s₄, hc', h4⟩ := bind_ok.1 h3
        cases h4
        exact ((hs₂.fileclose hc).1.fileclose hc').1

theorem sysPipe_exact {mem : Bool} (hs : Exact 0 s) (hrun : sysPipe p mem s = .ok ((), s')) : Exact 0 s' := by
  unfold sysPipe at hrun
  obtain ⟨r, s₁, ha, h1⟩ := bind_ok.1 hrun
  have hs₁ := hs.pipealloc ha
  cases r with
  | none =>
    cases h1
    exact hs₁
  | some fs =>
    obtain ⟨rf, wf⟩ := fs
    obtain ⟨r, s₂, hfd, h2⟩ := bind_ok.1 h1
    obtain ⟨hs₂, -⟩ := hs₁.fdalloc hfd
    cases r with
    | none =>
      obtain ⟨_, s₃, hc, h3⟩ := bind_ok.1 h2
      exact ((hs₂.fileclose hc).1.fileclose h3).1
    | some fd0 =>
      obtain ⟨r, s₃, hfd', h3⟩ := bind_ok.1 h2
      obtain ⟨hs₃, -⟩ := hs₂.fdalloc hfd'
      cases r with
      | none =>
        obtain ⟨t, s₄, hp, h4⟩ := bind_ok.1 h3
        obtain ⟨ht, rfl⟩ := curproc_ok hp
        obtain ⟨_, s₅, hset, h5⟩ := bind_ok.1 h4
        obtain ⟨_, s₆, hc, h6⟩ := bind_ok.1 h5
        exact (((hs₃.setTask (by rw [ht]; rfl) hset).fileclose hc).1.fileclose h6).1
      | some _ =>
        cases h3
        exact hs₃

theorem sysExec_exact {path : List UInt8} {reads : List (Nat × Nat)} {dev : Option (List UInt8)} (hs : Exact 0 s)
    (hrun : sysExec p path reads dev s = .ok ((), s')) : Exact 0 s' := by
  unfold sysExec at hrun
  obtain ⟨t, s₁, hp, h1⟩ := bind_ok.1 hrun
  obtain ⟨ht, rfl⟩ := curproc_ok hp
  obtain ⟨r, s₂, hex, h2⟩ := bind_ok.1 h1
  obtain ⟨hs₂, htask, -⟩ := hs.onCwd (L := fun _ => 0) ht (fun H => by simpa using execInode_counted t.cwd path reads dev) hex
  cases r with
  | none =>
    cases h2
    exact hs₂
  | some r =>
    refine hs₂.setTask ?_ h2
    rw [htask, ht]
    rfl

theorem Exact.dupAll : ∀ {fs : List (Option FileIdx)} {s : Sys}, Exact K s → dupAll fs s = .ok ((), s') → Exact K s' ∧ s'.task = s.task
  | [], s, hs, hrun => by
    cases hrun
    exact ⟨hs, rfl⟩
  | none :: fs, s, hs, hrun => Exact.dupAll hs (show FileSys.dupAll fs s = _ from hrun)
  | some f :: fs, s, hs, hrun => by
    obtain ⟨_, s₁, hd, h1⟩ := bind_ok.1 hrun
    obtain ⟨hs₁, ht⟩ := hs.filedup hd
    obtain ⟨h, ht'⟩ := hs₁.dupAll h1
    exact ⟨h, ht'.trans ht⟩

theorem sysFork_exact {q : ProcIdx} {dev inum : Nat} (hs : Exact 0 s) (hrun : sysFork p q dev inum s = .ok ((), s')) : Exact 0 s' := by
  unfold sysFork at hrun
  obtain ⟨t, s₁, hp, h1⟩ := bind_ok.1 hrun
  obtain ⟨ht, rfl⟩ := curproc_ok hp
  obtain ⟨_, s₂, hget, h2⟩ := bind_ok.1 h1
  cases hget
  split at h2
  · cases h2
    exact hs
  · next hq =>
    obtain ⟨_, s₃, hdup, h3⟩ := bind_ok.1 h2
    obtain ⟨hs₃, htask⟩ := hs.dupAll hdup
    obtain ⟨cwd, s₄, hid, h4⟩ := bind_ok.1 h3
    obtain ⟨hs₄, htask', -⟩ := hs₃.onCwd (L := one) (by rw [htask]; exact ht) (fun H => idup_counted t.cwd) hid
    refine hs₄.setTask ?_ h4
    rw [htask', htask, Option.not_isSome_iff_eq_none.1 hq]
    exact add_comm _ _

theorem closeAll_exact : ∀ {fds : List Fd} {s : Sys}, Exact 0 s → closeAll p fds s = .ok ((), s') → Exact 0 s'
  | [], s, hs, hrun => by
    cases hrun
    exact hs
  | fd :: fds, s, hs, hrun => by
    obtain ⟨_, s₁, hc, h1⟩ := bind_ok.1 hrun
    exact closeAll_exact (sysClose_exact hs hc) h1

theorem sysExit_exact (hs : Exact 0 s) (hrun : sysExit p s = .ok ((), s')) : Exact 0 s' := by
  unfold sysExit at hrun
  split at hrun
  · obtain ⟨fs, h, -⟩ := onFs_ok.1 hrun
    cases h
  · obtain ⟨_, s₁, hc, h1⟩ := bind_ok.1 hrun
    have hs₁ := closeAll_exact hs hc
    obtain ⟨t, s₂, hp, h2⟩ := bind_ok.1 h1
    obtain ⟨ht, rfl⟩ := curproc_ok hp
    obtain ⟨_, s₃, hput, h3⟩ := bind_ok.1 h2
    obtain ⟨fs, hfs, rfl⟩ := onFs_ok.1 hput
    cases h3
    obtain ⟨H, hH⟩ := holders_task ht
    have hrefs := (iput_counted t.cwd).of_ok (by have := hs₁.refs; rwa [hH, add_zero] at this) hfs
    have hset := holders_setTask (s := s₂) (p := p) (t := none)
    rw [ht, hH] at hset
    have hnew : Sys.holders { s₂ with task := update s₂.task p none } = H := add_right_cancel hset
    refine ⟨?_, hs₁.closed⟩
    show RefsAre (Sys.holders { s₂ with task := update s₂.task p none } + 0) fs
    rw [hnew, add_zero]
    exact hrefs

/-! ## Runs -/

/-- A step that loads no page from the program's file. -/
def Call.noFault : Call → Prop
  | .fault _ => False
  | _ => True

theorem Call.run_exact {c : Call} (hc : c.noFault) (hs : Exact 0 s) (hrun : c.run p s = .ok ((), s')) : Exact 0 s' := by
  cases c with
  | «open» path omode => exact sysOpen_exact hs hrun
  | mkdir path =>
    refine onCwd_exact (x := fun cwd => create cwd path tDir 0 0 >>= putNew) hs (fun cwd H => ?_) hrun
    exact (create_counted cwd path _ _ _).bind fun r => putNew_counted _ r
  | mknod path major minor =>
    refine onCwd_exact (x := fun cwd => create cwd path tDev (short major) (short minor) >>= putNew) hs (fun cwd H => ?_) hrun
    exact (create_counted cwd path _ _ _).bind fun r => putNew_counted _ r
  | link old new => exact onCwd_exact hs (fun cwd H => link_counted cwd old new) hrun
  | unlink path => exact onCwd_exact hs (fun cwd H => unlink_counted cwd path) hrun
  | chdir path => exact sysChdir_exact hs hrun
  | close fd => exact sysClose_exact hs hrun
  | dup fd => exact sysDup_exact hs hrun
  | read fd n dev => exact sysRead_exact hs hrun
  | fstat fd => exact sysFstat_exact hs hrun
  | write fd src dev => exact sysWrite_exact hs hrun
  | pipe mem => exact sysPipe_exact hs hrun
  | exec path reads dev => exact sysExec_exact hs hrun
  | fault reads => exact hc.elim
  | fork q dev inum => exact sysFork_exact hs hrun
  | exit => exact sysExit_exact hs hrun

theorem Runs.exact {cs : List (ProcIdx × Call)} (h : Runs cs s s') (hc : ∀ c ∈ cs, c.2.noFault) (hs : Exact 0 s) : Exact 0 s' := by
  induction h with
  | nil => exact hs
  | cons hrun _ ih => exact ih (fun c hm => hc c (List.mem_cons_of_mem _ hm)) (Call.run_exact (hc _ List.mem_cons_self) hs hrun)

/-- The first process holds the root directory. -/
theorem boot_exact {fs : Fsys} (hempty : ∀ i, (fs.icache i).ref = 0) (hboot : Sys.boot fs = .ok s) : Exact 0 s := by
  have hblank : RefsAre 0 fs := ⟨fun i _ hi => absurd (hempty i) (by omega), hempty⟩
  have hroot : Counted 0 (namei 0 [slash]) fun r => 0 + given id r :=
    .bind (.bind (iget_counted rootDev rootIno) fun ip => namexLoop_counted false _ ip _) fun r => .pure fun _ h => by cases r <;> exact h
  unfold Sys.boot at hboot
  cases hn : namei 0 [slash] fs with
  | error e =>
    rw [hn] at hboot
    cases hboot
  | ok r =>
    obtain ⟨_ | cwd, fs'⟩ := r
    · rw [hn] at hboot
      cases hboot
    · rw [hn] at hboot
      cases hboot
      refine ⟨?_, fun _ _ => rfl⟩
      have htask := sum_update Task.holds (fun _ : ProcIdx => none) 0 (some ⟨cwd, fun _ => none, 0, 0⟩)
      have hfiles : ∑ _f : FileIdx, File.holds ⟨.none, 0, false, false, 0, 0⟩ = 0 := Finset.sum_eq_zero fun _ _ => rfl
      have hnone : ∑ _p : ProcIdx, Task.holds none = 0 := Finset.sum_eq_zero fun _ _ => rfl
      rw [hnone] at htask
      simp only [Sys.holders, hfiles]
      rw [add_zero, zero_add, ← add_zero (∑ p, _), show (0 : InodeIdx → Nat) = Task.holds none from rfl, htask]
      exact hroot.of_ok hblank hn

/-- The last reference to an unlinked inode frees it. -/
theorem iput_frees {fs fs' : Fsys} {i : InodeIdx} (hv : (fs.icache i).valid = true) (hn : (fs.icache i).d.nlink = 0)
    (href : (fs.icache i).ref = 1) (h : iput i fs = .ok ((), fs')) :
    (fs'.dinode (fs.icache i).inum).type = 0 ∧ (fs'.icache i).ref = 0 := by
  have hrun : (do
      itrunc i
      setDinode i fun d => { d with type := 0 }
      iupdate i
      setInode i fun ip => { ip with valid := false }
      setInode i fun ip => { ip with ref := ip.ref - 1 } : FsM Unit) fs = .ok ((), fs') := by
    rw [← h]
    unfold iput
    show _ = (if (fs.icache i).valid = true ∧ (fs.icache i).d.nlink = 0 ∧ (fs.icache i).ref = 1 then _ else _ : FsM Unit) fs
    rw [if_pos ⟨hv, hn, href⟩]
  obtain ⟨_, s₁, htrunc, h1⟩ := bind_ok.1 hrun
  obtain ⟨href₁, -, hinum⟩ := steady_itrunc i htrunc i
  obtain ⟨_, s₂, hset, h2⟩ := bind_ok.1 h1
  cases hset
  obtain ⟨_, s₃, hup, h3⟩ := bind_ok.1 h2
  obtain ⟨_, s₃', hget, h3'⟩ := bind_ok.1 hup
  cases hget
  obtain ⟨_, s₄, hacc, h4⟩ := bind_ok.1 h3'
  unfold access at hacc
  split at hacc
  · cases hacc
    cases h4
    cases h3
    constructor
    · simp [hinum]
    · simp [href₁, href]
  · cases hacc

/-! ## A small disk -/

/-- A disk with the root directory and one file. -/
def smallDisk : Fsys where
  sb := mkSb
  disksize := mkSb.size
  bit b := b < nMeta + 2
  dinode j :=
    if j = rootIno then ⟨tDir, 0, 0, 1, 48, update (fun _ => 0) 0 nMeta⟩
    else if j = 2 then ⟨tFile, 0, 0, 1, 5, update (fun _ => 0) 0 (nMeta + 1)⟩
    else Dinode.zero
  data b :=
    if b = nMeta then overwrite (fun _ => 0) 0
      (Dirent.encode ⟨rootIno, strncpy [46]⟩ ++ Dirent.encode ⟨rootIno, strncpy [46, 46]⟩ ++ Dirent.encode ⟨2, strncpy [97]⟩)
    else if b = nMeta + 1 then overwrite (fun _ => 0) 0 [104, 101, 108, 108, 111]
    else fun _ => 0
  icache _ := ⟨0, 0, 0, false, Dinode.zero⟩

/-! ## Reference counts are exact -/

end DemandPaging.FileSys
