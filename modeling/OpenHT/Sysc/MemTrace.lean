import Mathlib.Algebra.Order.Group.Int
import Mathlib.Data.Int.Init
import OpenHT.Lib.Bytes

/-!
# The memory trace file

`CMemTrace` writes one variable-length record per memory request: five bytes of bit fields and three
deltas of one to eight bytes. Writer and reader each keep a running start time and a running row
address.

* `MemReq`: the arguments of `WriteReq`, within their ranges.
* `TraceWriter.writeReq`, `TraceWriter.close`: the file.
* `TraceReader.readReq`, `TraceReader.lookupFileLine`: what is read from it.
-/

namespace OpenHT.Sysc

open Bytes

/-- `int64_t` and `uint64_t` values of an integer. -/
def i64 (x : ℤ) : ℤ := x.bmod (2 ^ 64)
def u64 (x : ℤ) : ℕ := (x % 2 ^ 64).toNat

/-- A request as `WriteReq` gets it. `F` is the type of file name pointers. -/
structure MemReq (F : Type) where
  ae : ℕ
  unit : ℕ
  op : ℕ
  host : ℕ
  file : F
  line : ℤ
  startTime : ℕ
  compTime : ℕ
  addr : ℕ
  ae_lt : ae < 4
  unit_lt : unit < 16
  op_lt : op < 2
  host_lt : host < 2
  line_ge : -2 ^ 31 ≤ line
  line_lt : line < 2 ^ 31
  start_le : startTime ≤ compTime
  comp_lt : compTime < 2 ^ 62
  addr_lt : addr < 2 ^ 64
  aligned : addr % 8 = 0

/-- `CMemTraceFmt`. -/
structure MemTraceFmt where
  ae : ℕ
  unit : ℕ
  src : ℕ
  host : ℕ
  mc : ℕ
  bank : ℕ
  op : ℕ
  startSize : ℕ
  startSign : ℕ
  compSize : ℕ
  addrSize : ℕ
  addrSign : ℕ
deriving DecidableEq, Repr

namespace MemTraceFmt

def widths : List ℕ := [2, 4, 8, 1, 3, 7, 1, 2, 1, 2, 2, 1]

/-- The bit fields as a number; `pad` is what the six bits above them happen to hold. -/
def pack (f : MemTraceFmt) (pad : ℕ) : ℕ :=
  fields (widths.zip [f.ae, f.unit, f.src, f.host, f.mc, f.bank, f.op, f.startSize, f.startSign,
    f.compSize, f.addrSize, f.addrSign]) (pad % 2 ^ 6)

def unpack (n : ℕ) : MemTraceFmt :=
  match unfields widths n with
  | [ae, unit, src, host, mc, bank, op, startSize, startSign, compSize, addrSize, addrSign] =>
    ⟨ae, unit, src, host, mc, bank, op, startSize, startSign, compSize, addrSize, addrSign⟩
  | _ => ⟨0, 0, 0, 0, 0, 0, 0, 0, 0, 0, 0, 0⟩

end MemTraceFmt

/-- The size class of a delta, `1 << CprsInt` bytes. -/
def cprsInt (n : ℕ) : ℕ :=
  if n < 1 <<< 8 then 0 else if n < 1 <<< 16 then 1 else if n < 1 <<< 32 then 2 else 3

def maxFileLineSize : ℕ := 256

/-- `FILE_LINE_MASK` applied to a line. -/
def fileLineHash (line : ℤ) : ℕ := (line % 256).toNat

/-- The writer: the records written so far, the request count of the header, the running values and
the table of source lines with its hash chains. -/
structure TraceWriter (F : Type) where
  records : List ℕ
  memReqCount : ℕ
  prevStartTime : ℕ
  prevAddr : ℕ
  fileLineSpace : List (F × ℤ)
  fileLineChain : ℕ → List ℕ

/-- A finished file: the header's counts and offset, and the bytes after the header. -/
structure TraceFile where
  memReqCount : ℕ
  fileLineOffset : ℕ
  fileLineCount : ℕ
  body : List ℕ

/-- `sizeof(CMemTraceHdr)`. -/
def memTraceHdrSize : ℕ := 32

namespace TraceWriter

variable {F : Type}

/-- `Open(Write, ..)`. -/
def init : TraceWriter F := ⟨[], 0, 0, 0, [], fun _ => []⟩

/-- `LookupSrc`. Names are compared by their pointers. -/
def lookupSrc [DecidableEq F] (w : TraceWriter F) (file : F) (line : ℤ) : TraceWriter F × ℕ :=
  match (w.fileLineChain (fileLineHash line)).find? (fun i => w.fileLineSpace[i]? = some (file, line)) with
  | some i => (w, i)
  | none =>
    if w.fileLineSpace.length = maxFileLineSize then (w, maxFileLineSize - 1)
    else ({ w with
      fileLineSpace := w.fileLineSpace ++ [(file, line)]
      fileLineChain := Function.update w.fileLineChain (fileLineHash line)
        (w.fileLineSpace.length :: w.fileLineChain (fileLineHash line)) }, w.fileLineSpace.length)

/-- `startDelta / 1000`, rounded towards zero. -/
def startDelta (w : TraceWriter F) (r : MemReq F) : ℤ :=
  (i64 ((r.startTime : ℤ) - w.prevStartTime)).tdiv 1000

def compDelta (r : MemReq F) : ℕ := u64 ((r.compTime : ℤ) - r.startTime) / 1000

def addrDelta (w : TraceWriter F) (r : MemReq F) : ℤ := i64 (((r.addr >>> 13 : ℕ) : ℤ) - w.prevAddr)

/-- The bit fields of a request whose source line has index `src`. -/
def fmt (w : TraceWriter F) (r : MemReq F) (src : ℕ) : MemTraceFmt where
  ae := r.ae
  unit := r.unit
  src := src
  host := r.host
  mc := (r.addr >>> 6) &&& 7
  bank := ((r.addr >>> 6) &&& 0x78) ||| ((r.addr >>> 3) &&& 0x7)
  op := r.op
  startSize := cprsInt (w.startDelta r).natAbs
  startSign := if w.startDelta r < 0 then 1 else 0
  compSize := cprsInt (compDelta r)
  addrSize := cprsInt (w.addrDelta r).natAbs
  addrSign := if w.addrDelta r < 0 then 1 else 0

/-- The bytes of a request. -/
def record (w : TraceWriter F) (r : MemReq F) (src pad : ℕ) : List ℕ :=
  leBytes 5 ((w.fmt r src).pack pad) ++
  leBytes (1 <<< cprsInt (w.startDelta r).natAbs) (w.startDelta r).natAbs ++
  leBytes (1 <<< cprsInt (compDelta r)) (compDelta r) ++
  leBytes (1 <<< cprsInt (w.addrDelta r).natAbs) (w.addrDelta r).natAbs

/-- `WriteReq`. -/
def writeReq [DecidableEq F] (w : TraceWriter F) (r : MemReq F) (pad : ℕ) : TraceWriter F :=
  let (w', src) := w.lookupSrc r.file r.line
  { w' with
    records := w.records ++ w.record r src pad
    memReqCount := w.memReqCount + 1
    prevStartTime := u64 (w.prevStartTime + w.startDelta r * 1000)
    prevAddr := u64 (w.prevAddr + w.addrDelta r) }

/-- A sequence of requests, each with its padding. -/
def writeAll [DecidableEq F] (reqs : List (MemReq F × ℕ)) : TraceWriter F :=
  reqs.foldl (fun w r => w.writeReq r.1 r.2) init

/-- The entry of a source line in the file; `name` gives the characters behind a pointer. -/
def fileLineBytes (name : F → List ℕ) (e : F × ℤ) : List ℕ :=
  leBytes 4 (e.2 % 2 ^ 32).toNat ++ leBytes 4 (min (name e.1).length 256 + 1) ++
  ((name e.1) ++ [0]).take (min (name e.1).length 256 + 1)

/-- `Close`. -/
def close (w : TraceWriter F) (name : F → List ℕ) : TraceFile where
  memReqCount := w.memReqCount
  fileLineOffset := memTraceHdrSize + w.records.length
  fileLineCount := w.fileLineSpace.length
  body := w.records ++ (w.fileLineSpace.map (fileLineBytes name)).flatten

end TraceWriter

/-- What `ReadReq` returns. -/
structure ReadReq where
  ae : ℕ
  unit : ℕ
  mc : ℕ
  bank : ℕ
  op : ℕ
  src : ℕ
  host : ℕ
  startTime : ℕ
  compTime : ℕ
  addr : ℕ
deriving DecidableEq, Repr

/-- The reader: its position in the body, its running values and the table of source lines. -/
structure TraceReader where
  file : TraceFile
  pos : ℕ
  memReqIdx : ℕ
  prevStartTime : ℕ
  prevAddr : ℕ
  fileLineSpace : List (List ℕ × ℤ)

namespace TraceReader

/-- `n` bytes of the file from `pos`, fewer at its end. -/
def bytes (body : List ℕ) (pos n : ℕ) : List ℕ := (body.drop pos).take n

/-- The value read into a zeroed integer. -/
def fread (body : List ℕ) (pos n : ℕ) : ℕ := Nat.ofDigits 256 (bytes body pos n)

/-- The loop of `Open` over the table of source lines. -/
def readFileLines (body : List ℕ) : ℕ → ℕ → List (List ℕ × ℤ)
  | 0, _ => []
  | n + 1, pos =>
    let line := (fread body pos 4 : ℤ).bmod (2 ^ 32)
    let len := fread body (pos + 4) 4
    (bytes body (pos + 8) len, line) :: readFileLines body n (pos + 8 + len)

/-- `Open(Read, ..)`. -/
def openFile (f : TraceFile) : TraceReader :=
  ⟨f, 0, 0, 0, 0, readFileLines f.body f.fileLineCount (f.fileLineOffset - memTraceHdrSize)⟩

/-- The address of a record. -/
def addrOf (prevAddr : ℕ) (f : MemTraceFmt) : ℕ :=
  (prevAddr <<< 13) % 2 ^ 64 |||
    (((f.bank <<< 6) &&& 0x1fc0) ||| (f.mc <<< 6) ||| ((f.bank <<< 3) &&& 0x38))

/-- `ReadReq`. -/
def readReq (t : TraceReader) : Option (ReadReq × TraceReader) :=
  if t.memReqIdx = t.file.memReqCount ∨ (bytes t.file.body t.pos 5).length ≠ 5 then none
  else
    let f := MemTraceFmt.unpack (fread t.file.body t.pos 5)
    let pos1 := t.pos + 5
    let startAbs := fread t.file.body pos1 (1 <<< f.startSize)
    let pos2 := pos1 + 1 <<< f.startSize
    let compDelta := fread t.file.body pos2 (1 <<< f.compSize)
    let pos3 := pos2 + 1 <<< f.compSize
    let addrAbs := fread t.file.body pos3 (1 <<< f.addrSize)
    let pos4 := pos3 + 1 <<< f.addrSize
    let startDelta : ℤ := if f.startSign = 1 then -i64 startAbs else i64 startAbs
    let addrDelta : ℤ := if f.addrSign = 1 then -i64 addrAbs else i64 addrAbs
    let prevStartTime := u64 (t.prevStartTime + startDelta)
    let prevAddr := u64 (t.prevAddr + addrDelta)
    some ({ ae := f.ae, unit := f.unit, mc := f.mc, bank := f.bank, op := f.op, src := f.src, host := f.host
            startTime := prevStartTime, compTime := u64 (prevStartTime + compDelta)
            addr := addrOf prevAddr f },
      { t with pos := pos4, memReqIdx := t.memReqIdx + 1, prevStartTime := prevStartTime, prevAddr := prevAddr })

/-- Reading until `ReadReq` returns false, at most `n` times. -/
def readAll : ℕ → TraceReader → List ReadReq
  | 0, _ => []
  | n + 1, t =>
    match t.readReq with
    | none => []
    | some (r, t') => r :: readAll n t'

/-- `LookupFileLine`. -/
def lookupFileLine (t : TraceReader) (src : ℕ) : Option (List ℕ × ℤ) := t.fileLineSpace[src]?

end TraceReader

/-- The C string at the start of a buffer: none if the buffer has no terminator. -/
def cString (buf : List ℕ) : Option (List ℕ) :=
  if 0 ∈ buf then some (buf.takeWhile (· ≠ 0)) else none

end OpenHT.Sysc
