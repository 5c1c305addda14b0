/-
The write-ahead log of `log.c`: the header and its absorption of repeated writes, the admission of
operations by `begin_op` and `end_op`, and the reads and writes of `commit` and `recover_from_log`.
-/
import DemandPaging.Kernel.State
import DemandPaging.Lib.Bytes
import DemandPaging.Lib.Crash

namespace DemandPaging.FileSys

open Bytes Crash

/-- `MAXOPBLOCKS`, the number of blocks an operation may write. -/
def maxOpBlocks : Nat := 10

/-- `LOGSIZE`, the capacity of `struct logheader`. -/
def logSize : Nat := maxOpBlocks * 3

/-- The entries in use of `log.lh.block`; `log.lh.n` is their number. -/
abbrev LogHeader := List Nat

/-- `struct log`, without its lock. -/
structure Log where
  start : Nat
  size : Nat
  outstanding : Int
  committing : Bool
  lh : LogHeader
  deriving DecidableEq, Repr

/-! ## Operations -/

/-- One pass of the loop of `begin_op`; null where the caller goes to sleep. -/
def beginOp (lg : Log) : Option Log :=
  if lg.committing then none
  else if (logSize : Int) < lg.lh.length + (lg.outstanding + 1) * maxOpBlocks then none
  else some { lg with outstanding := lg.outstanding + 1 }

/-- The part of `end_op` that is run under the lock, and whether the caller has to commit. -/
def endOp (lg : Log) : Except Stuck (Bool × Log) :=
  let lg := { lg with outstanding := lg.outstanding - 1 }
  if lg.committing then .error (.panic "log.committing")
  else if lg.outstanding = 0 then .ok (true, { lg with committing := true })
  else .ok (false, lg)

/-- The tests of `log_write`, which are made before it takes the lock. -/
def logCheck (lg : Log) : Except Stuck Unit :=
  if logSize ≤ lg.lh.length ∨ (lg.size : Int) - 1 ≤ lg.lh.length then .error (.panic "too big a transaction")
  else if lg.outstanding < 1 then .error (.panic "log_write outside of trans")
  else .ok ()

/-- The part of `log_write` that is run under the lock. -/
def logRecord (lh : LogHeader) (b : Nat) : LogHeader :=
  -- log absorption
  if b ∈ lh then lh else lh ++ [b]

/-- `log_write` run by itself. -/
def logWrite (b : Nat) (lg : Log) : Except Stuck Log := do
  logCheck lg
  .ok { lg with lh := logRecord lg.lh b }

/-! ## Commit and recovery -/

/-- `hb->n` of the header block. -/
def headCount (buf : Block) : Nat := getLe buf 0 4

/-- `hb->block[i]` of the header block. -/
def headEntry (buf : Block) (i : Nat) : Nat := getLe buf (4 + 4 * i) 4

/-- The header block with the in-memory header stored in it; entries past the last one keep what an
earlier transaction has left there. -/
def putHead (buf : Block) (lh : LogHeader) : Block :=
  lh.zipIdx.foldl (fun buf e => putLe buf (4 + 4 * e.2) 4 e.1) (putLe buf 0 4 lh.length)

/-- `write_head`. -/
def writeHead (start : Nat) (lh : LogHeader) : Prog Nat Block Unit := do
  let buf ← .read start .ret
  .write start (putHead buf lh) (.ret ())

/-- `read_head`. -/
def readHead (start : Nat) : Prog Nat Block LogHeader := do
  let buf ← .read start .ret
  return (List.range (headCount buf)).map (headEntry buf)

/-- `write_log`; `cached` is what the buffer cache holds. -/
def writeLog (start : Nat) (cached : Nat → Block) (lh : LogHeader) : Prog Nat Block Unit :=
  .each (fun e => .read (start + e.2 + 1) fun _ => .write (start + e.2 + 1) (cached e.1) (.ret ())) lh.zipIdx

/-- `install_trans`. -/
def installTrans (start : Nat) (lh : LogHeader) : Prog Nat Block Unit :=
  .each (fun e => .read (start + e.2 + 1) fun lbuf => .read e.1 fun _ => .write e.1 lbuf (.ret ())) lh.zipIdx

/-- `commit`. -/
def commit (start : Nat) (cached : Nat → Block) (lh : LogHeader) : Prog Nat Block Unit :=
  if 0 < lh.length then do
    writeLog start cached lh
    writeHead start lh
    installTrans start lh
    writeHead start []
  else .ret ()

/-- `recover_from_log`. -/
def recoverFromLog (start : Nat) : Prog Nat Block Unit := do
  let lh ← readHead start
  installTrans start lh
  writeHead start []

end DemandPaging.FileSys
