import OpenHT.Host.Unit
import OpenHT.Host.UnitMap
import OpenHT.Lib.ExchangeSort
import OpenHT.Lib.Packing

/-!
# Host interface memory

`CHtHifMem` (`HtHifLib.h`, `HtHifLib.cpp`): one allocation that holds all regions the
coprocessor sees, and the control rings of `CHtModelUnitLib` (`HtModelLib.cpp`) in it.

* `MemRegion`: size (56 bits), NUMA set (8 bits) and offset (56 bits) of a region; `sortKey` is the
  union of the first two.
* `memRegionList`, `setMemOffsets`, `allocHifMem`: the list, its order and the offsets.
* `getCtlInQueMemBase`, `getCtlOutQueMemBase`: the rings of the host.
* `modelInCtlQue`, `modelOutCtlQue`: the rings of the model unit.

Sizes that the source keeps in 32 bits are taken modulo `4294967296`; sums of offsets are 64 bits wide.
-/

namespace OpenHT.Host

open ExchangeSort Packing

/-- `CHtHifMem::CHtHifMemRegion`. -/
structure MemRegion where
  size : ℕ
  numaSet : ℕ
  offset : ℕ
deriving DecidableEq, Repr

namespace MemRegion

/-- `InitRegion`: the fields are 56 and 8 bits wide. -/
def initRegion (size numaSet : ℕ) : MemRegion := ⟨size % 72057594037927936, numaSet % 256, 0⟩

/-- `m_sortKey` overlays `m_size` and `m_numaSet`. -/
def sortKey (r : MemRegion) : ℕ := r.numaSet * 72057594037927936 + r.size

def setMemOffset (r : MemRegion) (offset : ℕ) : MemRegion := { r with offset := offset % 72057594037927936 }

end MemRegion

/-- A region that does not exist. -/
def noRegion : MemRegion := ⟨0, 0, 0⟩

/-- `2 MB`. -/
def numaAlign : ℕ := 2097152

/-- `sizeof(CHtCtrlMsg)`. -/
def ctrlMsgSize : ℕ := 8

namespace HifParams

variable (P : HifParams)

/-- `m_ctlInQueMemSize` and `m_ctlOutQueMemSize`, 32 bits wide. -/
def ctlInQueMemSize : ℕ := (1 <<< P.ctlQueW) * ctrlMsgSize % 4294967296
def ctlOutQueMemSize : ℕ := (1 <<< P.ctlQueW) * ctrlMsgSize % 4294967296

/-- `m_ctlQueMemSize`, 32 bits wide. -/
def ctlQueMemSize : ℕ := (P.ctlInQueMemSize + P.ctlOutQueMemSize) % 4294967296

/-- The control queues of an AE: a product of 32 bits. -/
def ctlRegionSize (auCnt : ℕ) : ℕ := P.ctlQueMemSize * auCnt % 4294967296

def inBlkMemSize : ℕ := (1 <<< P.iBlkSizeW) * (1 <<< P.iBlkCntW)
def outBlkMemSize : ℕ := (1 <<< P.oBlkSizeW) * (1 <<< P.oBlkCntW)

def flushLinesMemSize : ℕ := 64 * 8

/-- `m_unitMemSize`, 32 bits wide; `unitSize` is `sizeof(CHtUnitLib)`. -/
def unitMemSize (unitSize : ℕ) : ℕ := up 4096 unitSize % 4294967296

/-- `m_appUnitMemSize` and `appPersMemSize`, to the next 4096 boundary. -/
def appUnitMemSizeUp : ℕ := up 4096 P.appUnitMemSize
def appPersMemSizeUp : ℕ := up 4096 P.appPersMemSize

end HifParams

section Alloc

variable (P : HifParams) (m : UnitMap) (unitCnt unitSize : ℕ)

/-- The regions of one unit, from `HT_HIF_MEM_BLK_IN` to `HT_HIF_MEM_UNIT`. -/
def unitRegions (unitId : ℕ) : List MemRegion :=
  let numaSet := m.numaSet unitId
  [.initRegion P.inBlkMemSize numaSet, .initRegion P.outBlkMemSize numaSet,
    .initRegion P.appUnitMemSizeUp numaSet, .initRegion (HifParams.unitMemSize unitSize) numaSet]

/-- The control queues of an AE are in the NUMA set of its first unit. -/
def ctlRegion (aeId : ℕ) : MemRegion :=
  .initRegion (P.ctlRegionSize (m.auCnt aeId)) (m.numaSet (m.findUnitId aeId 0))

/-- `m_pMemRegionList` before any offset is set. -/
def memRegionList : List MemRegion :=
  [.initRegion P.appPersMemSizeUp 0, .initRegion HifParams.flushLinesMemSize 0] ++
    (List.range m.aeCnt).map (ctlRegion P m) ++ (List.range unitCnt).flatMap (fun u => unitRegions P m unitSize u)

end Alloc

/-- The state of the loop that sets the offsets. -/
structure Layout where
  regions : List MemRegion
  offset : ℕ
  /-- `(uint8_t)-1` before the first region. -/
  prevNumaSet : ℕ

/-- One turn of that loop. -/
def Layout.setOffset (s : Layout) (i : ℕ) : Layout :=
  let r := s.regions.getD i noRegion
  let offset := if r.numaSet ≠ s.prevNumaSet then up numaAlign s.offset % 18446744073709551616 else s.offset
  ⟨s.regions.set i (r.setMemOffset offset), (offset + r.size) % 18446744073709551616, r.numaSet⟩

/-- The pointers to the regions, sorted by key. -/
def memOrder (regions : List MemRegion) : List ℕ :=
  exchangeSort (fun i => (regions.getD i noRegion).sortKey) regions.length (List.range regions.length)

def setMemOffsets (regions : List MemRegion) : Layout :=
  (memOrder regions).foldl Layout.setOffset ⟨regions, 0, 255⟩

/-- The host memory that is allocated. -/
structure HifMem where
  aeCnt : ℕ
  regions : List MemRegion
  /-- The order in which the regions were laid out. -/
  order : List ℕ
  htHifMemSize : ℕ
  base : ℕ
  ctlInQueMemSize : ℕ
  ctlQueMemSize : ℕ

/-- `HostMemAllocHuge` and `HostMemAllocAlign` (alignment and size): an address, or nothing. -/
structure HostAlloc where
  huge : Option ℕ
  align : ℕ → ℕ → Option ℕ

def HostAlloc.alloc (host : HostAlloc) (hugePage : Bool) (size : ℕ) : Option ℕ :=
  if hugePage then host.huge else host.align 4194304 size

def hugePageSize : ℕ := 1073741824

/-- `CHtHifMem::AllocHifMem`; `hugePage` is `m_bHtHifHugePage`. -/
def allocHifMem (host : HostAlloc) (hugePage : Bool) (P : HifParams) (m : UnitMap) (unitCnt unitSize : ℕ) :
    Except String HifMem :=
  let regions := memRegionList P m unitCnt unitSize
  let l := setMemOffsets regions
  let htHifMemSize := up numaAlign l.offset % 18446744073709551616
  if hugePage ∧ htHifMemSize > hugePageSize then
    .error "HostMemAllocHuge is currently limited to a single 1GB page"
  else
    match host.alloc hugePage htHifMemSize with
    | none => .error "unable to alloc host memory"
    | some base => .ok
      { aeCnt := m.aeCnt, regions := l.regions, order := memOrder regions, htHifMemSize := htHifMemSize, base := base,
        ctlInQueMemSize := P.ctlInQueMemSize, ctlQueMemSize := P.ctlQueMemSize }

namespace HifMem

variable (M : HifMem)

def region (i : ℕ) : MemRegion := M.regions.getD i noRegion

/-- `CHtHifMemRegion::GetMemBase`. -/
def memBase (i : ℕ) : ℕ := M.base + (M.region i).offset

def getAppPersMemBase : ℕ := M.memBase 0
def getFlushLinesBase : ℕ := M.memBase 1
def getCtlQueMemBase (aeIdx : ℕ) : ℕ := M.memBase (2 + aeIdx)

/-- The offset is a product of 32 bits. -/
def getCtlInQueMemBase (m : UnitMap) (unitId : ℕ) : ℕ :=
  let p := m.findAeAu unitId
  M.memBase (2 + p.1) + M.ctlQueMemSize * p.2 % 4294967296

def getCtlOutQueMemBase (m : UnitMap) (unitId : ℕ) : ℕ :=
  let p := m.findAeAu unitId
  M.memBase (2 + p.1) + (M.ctlQueMemSize * p.2 + M.ctlInQueMemSize) % 4294967296

/-- `GetInBlkBase`, `GetOutBlkBase`, `GetAppUnitMemBase` and `GetUnitMemBase`: the regions of a unit. -/
def unitMemBase (unitId kind : ℕ) : ℕ := M.memBase (2 + M.aeCnt + unitId * 4 + kind)
def getInBlkBase (unitId : ℕ) : ℕ := M.unitMemBase unitId 0
def getOutBlkBase (unitId : ℕ) : ℕ := M.unitMemBase unitId 1
def getAppUnitMemBase (unitId : ℕ) : ℕ := M.unitMemBase unitId 2
def getUnitMemBase (unitId : ℕ) : ℕ := M.unitMemBase unitId 3

end HifMem

/-- A ring of control messages: where it is, and the mask of its index. -/
structure CtlRing where
  base : ℕ
  mask : ℕ
deriving DecidableEq, Repr

/-- The address of message `n`. -/
def CtlRing.slot (r : CtlRing) (n : ℕ) : ℕ := r.base + ctrlMsgSize * (n &&& r.mask)

section Rings

variable (P : HifParams) (m : UnitMap) (M : HifMem) (unitId : ℕ)

/-- `m_pCtlInQue` and `m_pCtlOutQue` of `CHtUnitLib`, with `m_ctlQueMask`. -/
def hostInCtlQue : CtlRing := ⟨M.getCtlInQueMemBase m unitId, 1 <<< P.ctlQueW - 1⟩
def hostOutCtlQue : CtlRing := ⟨M.getCtlOutQueMemBase m unitId, 1 <<< P.ctlQueW - 1⟩

/-- `m_pInCtlQue` and `m_pOutCtlQue` of `CHtModelUnitLib`, with `m_ctlQueMask`. -/
def modelInCtlQue : CtlRing :=
  let p := m.findAeAu unitId
  ⟨M.getCtlQueMemBase p.1 + ctrlMsgSize * (p.2 * modelHifCtlQueCnt * 2), modelHifCtlQueCnt - 1⟩
def modelOutCtlQue : CtlRing :=
  let p := m.findAeAu unitId
  ⟨M.getCtlQueMemBase p.1 + ctrlMsgSize * (p.2 * modelHifCtlQueCnt * 2 + modelHifCtlQueCnt), modelHifCtlQueCnt - 1⟩

end Rings

end OpenHT.Host
