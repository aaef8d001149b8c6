import Iqemu64.PageFlags
import Iqemu64.TbLookup

/-!
# Mapping and unmapping guest memory

`target_mmap` and `target_munmap` call the host and then set the flags of the pages. Setting the flags
invalidates the blocks of a page only where the page becomes writable. What the host answers is a parameter.
-/

namespace Iqemu64

def targetPageAlign (a : BitVec 64) : BitVec 64 := (a + 0xfff) &&& targetPageMask

def pagesBetween (a b : BitVec 64) : List (BitVec 64) :=
  (List.range ((b.toNat - a.toNat + 4095) / 4096)).map fun i => a + BitVec.ofNat 64 (4096 * i)

def pageValid : BitVec 32 := 0x8
def pageReserved : BitVec 32 := 0x20

namespace TbTables

def pageGetFlags (s : TbTables) (a : BitVec 64) : BitVec 32 := s.flags (pageOf a)

def flagsUnion (s : TbTables) (a b : BitVec 64) : BitVec 32 :=
  (pagesBetween a b).foldl (fun prot p => prot ||| s.pageGetFlags p) 0

def setPageFlags (flags : BitVec 32) (s : TbTables) (addr : BitVec 64) : Option TbTables :=
  (if ¬ (s.flags addr).getLsbD 1 ∧ flags.getLsbD 1 ∧ (s.firstTb addr).isSome then
    s.tbInvalidatePhysPage addr
  else some s).map fun t => { t with flags := Function.update t.flags addr flags }

/-- `page_set_flags`. `none` is a failed assertion. -/
def pageSetFlags (s : TbTables) (start stop : BitVec 64) (flags : BitVec 32) : Option TbTables :=
  if start < stop ∧ stop ≤ 0x1000000000000 then
    (pagesBetween (pageOf start) (targetPageAlign stop)).foldlM (setPageFlags (PageMap.storedFlags flags)) s
  else none

end TbTables

def protWrite : BitVec 32 := 0x2
def mapShared : BitVec 32 := 0x1
def mapPrivate : BitVec 32 := 0x2
def mapFixed : BitVec 32 := 0x10
def mapAnon : BitVec 32 := 0x1000
def mapFlagmask : BitVec 32 := 0x3ff7

/-- The host: its page size, and what its calls answer. Addresses are guest addresses. -/
structure MapHost where
  pageSize : BitVec 64
  sbrk : BitVec 64
  mmap : (addr len : BitVec 64) → (prot flags : BitVec 32) → (offset : BitVec 64) → Option (BitVec 64)
  mprotect : (addr len : BitVec 64) → (prot : BitVec 32) → Bool
  munmap : (addr len : BitVec 64) → Bool

def MapHost.pageMask (H : MapHost) : BitVec 64 := -H.pageSize

def MapHost.pageAlign (H : MapHost) (a : BitVec 64) : BitVec 64 := (a + H.pageSize - 1) &&& H.pageMask

structure MapState where
  tables : TbTables
  lastBrk : BitVec 64
  mmapNextStart : BitVec 64

namespace MapState

def reserveBrk (H : MapHost) (s : MapState) : Option MapState :=
  if s.lastBrk ≠ 0 ∧ s.lastBrk < H.sbrk then
    (s.tables.pageSetFlags (pageOf s.lastBrk) (targetPageAlign H.sbrk) pageReserved).map fun t =>
      { s with tables := t, lastBrk := H.sbrk }
  else some { s with lastBrk := H.sbrk }

def findVmaLoop (H : MapHost) (s : MapState) (addrStart size : BitVec 64) :
    ℕ → BitVec 64 → Option (BitVec 64)
  | 0, _ => none
  | fuel + 1, addr =>
    if s.tables.flagsUnion addr (addr + size) = 0 then some addr
    else if addr + H.pageSize = addrStart then some (-1)
    else findVmaLoop H s addrStart size fuel (addr + H.pageSize)

def mmapFindVma (H : MapHost) (s : MapState) (start size : BitVec 64) : Option (BitVec 64 × MapState) := do
  let s ← s.reserveBrk H
  let size := H.pageAlign size
  let start := start &&& H.pageMask
  let addr := if start = 0 then s.mmapNextStart else start
  let found ← s.findVmaLoop H addr size (2 ^ 64) addr
  if found = -1 then some (-1, s)
  else if start = 0 then some (found, { s with mmapNextStart := found + size })
  else some (found, s)

def mmapFrag (H : MapHost) (s : MapState) (realStart start stop : BitVec 64) (prot flags : BitVec 32) :
    Bool :=
  let outside := (List.range H.pageSize.toNat).map (fun i => realStart + BitVec.ofNat 64 i)
  let prot1 := (outside.filter fun addr => addr < start ∨ addr ≥ stop).foldl
    (fun prot addr => prot ||| s.tables.pageGetFlags addr) 0
  (prot1 ≠ 0 ∨ (H.mmap realStart H.pageSize prot (flags ||| mapAnon) 0).isSome) ∧
    ¬ (flags &&& mapAnon = 0 ∧ flags &&& mapFlagmask = mapShared ∧ prot &&& protWrite ≠ 0)

def mapPieces (H : MapHost) (s : MapState) (start len : BitVec 64) (prot flags : BitVec 32)
    (offset : BitVec 64) : Bool :=
  let stop := start + len
  let realStart := start &&& H.pageMask
  let realEnd := H.pageAlign stop
  if start > realStart ∧ realEnd = realStart + H.pageSize then
    s.mmapFrag H realStart start stop prot flags
  else
    let firstOk := start ≤ realStart ∨ s.mmapFrag H realStart start (realStart + H.pageSize) prot flags
    let realStart := if start > realStart then realStart + H.pageSize else realStart
    let lastOk := stop ≥ realEnd ∨
      s.mmapFrag H (realEnd - H.pageSize) (realEnd - H.pageSize) realEnd prot flags
    let realEnd := if stop < realEnd then realEnd - H.pageSize else realEnd
    let offset1 := if flags &&& mapAnon ≠ 0 then 0 else offset + realStart - start
    firstOk ∧ lastOk ∧
      (realStart ≥ realEnd ∨ (H.mmap realStart (realEnd - realStart) prot flags offset1).isSome)

def mmapFixed (H : MapHost) (s : MapState) (start len : BitVec 64) (prot flags : BitVec 32)
    (offset : BitVec 64) : Option (BitVec 64 × MapState) :=
  if (pagesBetween (start &&& H.pageMask) (H.pageAlign (start + len))).any
      fun p => s.tables.pageGetFlags p &&& pageReserved ≠ 0 then some (-1, s)
  else if s.mapPieces H start len prot flags offset then
    (s.tables.pageSetFlags start (start + len) (prot ||| pageValid)).map fun t => (start, { s with tables := t })
  else some (-1, s)

def mprotectPieces (H : MapHost) (s : MapState) (start len : BitVec 64) (prot : BitVec 32) : Bool :=
  let stop := start + len
  let hostStart := start &&& H.pageMask
  let hostEnd := H.pageAlign stop
  let single := start > hostStart ∧ hostEnd = hostStart + H.pageSize
  let before := s.tables.flagsUnion hostStart start
  let after := s.tables.flagsUnion stop hostEnd
  let firstOk := start ≤ hostStart ∨
    H.mprotect hostStart H.pageSize ((prot ||| before ||| if single then after else 0) &&& 0x7)
  let hostStart := if start > hostStart then hostStart + H.pageSize else hostStart
  let stop := if single then hostEnd else stop
  let lastOk := stop ≥ hostEnd ∨ H.mprotect (hostEnd - H.pageSize) H.pageSize ((prot ||| after) &&& 0x7)
  let hostEnd := if stop < hostEnd then hostEnd - H.pageSize else hostEnd
  firstOk ∧ lastOk ∧ (hostStart ≥ hostEnd ∨ H.mprotect hostStart (hostEnd - hostStart) prot)

def targetMprotect (H : MapHost) (s : MapState) (start len : BitVec 64) (prot : BitVec 32) :
    Option (BitVec 64 × MapState) :=
  if start &&& ~~~targetPageMask ≠ 0 then some (-22, s)
  else
    let len := targetPageAlign len
    let prot := prot &&& 0x7
    if start + len < start then some (-22, s)
    else if len = 0 then some (0, s)
    else if s.mprotectPieces H start len prot then
      (s.tables.pageSetFlags start (start + len) (prot ||| pageValid)).map fun t => (0, { s with tables := t })
    else some (-1, s)

def readsFile (H : MapHost) (start : BitVec 64) (flags : BitVec 32) (offset : BitVec 64) : Bool :=
  flags &&& mapAnon = 0 ∧ offset &&& ~~~H.pageMask ≠ start &&& ~~~H.pageMask

def mmapHint (H : MapHost) (s : MapState) (start hostLen : BitVec 64) : Option (BitVec 64 × MapState) :=
  let realStart := start &&& H.pageMask
  if realStart ≠ 0 then s.mmapFindVma H realStart hostLen else some (0, s)

def mmapAnywhere (H : MapHost) (s : MapState) (start len : BitVec 64) (prot flags : BitVec 32)
    (offset : BitVec 64) : Option (BitVec 64 × MapState) :=
  let hostOffset := offset &&& H.pageMask
  let hostLen := H.pageAlign (len + offset - hostOffset)
  (s.mmapHint H start hostLen).bind fun (mmapStart, s) =>
    if mmapStart = -1 then some (-1, s)
    else match H.mmap mmapStart hostLen prot flags hostOffset with
      | none => some (-1, s)
      | some p =>
        let start := if flags &&& mapAnon = 0 then p + (offset - hostOffset) else p
        (s.tables.pageSetFlags start (start + len) (prot ||| pageValid)).map fun t =>
          (start, { s with tables := t })

def mmapReadFile (H : MapHost) (s : MapState) (start len : BitVec 64) (prot flags : BitVec 32) :
    Option (BitVec 64 × MapState) :=
  if flags &&& mapFlagmask = mapShared ∧ prot &&& protWrite ≠ 0 then some (-1, s)
  else
    (s.mmapFixed H start len (prot ||| protWrite) (mapFixed ||| mapPrivate ||| mapAnon) 0).bind
      fun (retaddr, s) =>
        if retaddr = -1 then some (-1, s)
        else if prot &&& protWrite = 0 then
          (s.targetMprotect H start len prot).map fun (ret, s) => (if ret ≠ 0 then ret else start, s)
        else some (start, s)

/-- `target_mmap`: the address, or `-1`. The check for reserved pages stands before the one for a file that
has to be read, which makes it again for the anonymous mapping. -/
def targetMmap (H : MapHost) (s : MapState) (start len : BitVec 64) (prot flags : BitVec 32)
    (offset : BitVec 64) : Option (BitVec 64 × MapState) :=
  let aligned := targetPageAlign len
  if offset &&& ~~~targetPageMask ≠ 0 then some (-1, s)
  else if aligned = 0 then some (start, s)
  else if flags &&& mapFixed = 0 then s.mmapAnywhere H start aligned prot flags offset
  else if start &&& ~~~targetPageMask ≠ 0 then some (-1, s)
  else if readsFile H start flags offset then s.mmapReadFile H start aligned prot flags
  else s.mmapFixed H start aligned prot flags offset

def unmapRange (H : MapHost) (s : MapState) (start stop : BitVec 64) : BitVec 64 × BitVec 64 :=
  let realStart := start &&& H.pageMask
  let realEnd := H.pageAlign stop
  let single := start > realStart ∧ realEnd = realStart + H.pageSize
  let before := s.tables.flagsUnion realStart start |||
    if single then s.tables.flagsUnion stop realEnd else 0
  let realStart := if start > realStart ∧ before ≠ 0 then realStart + H.pageSize else realStart
  let stop := if single then realEnd else stop
  (realStart,
    if stop < realEnd ∧ s.tables.flagsUnion stop realEnd ≠ 0 then realEnd - H.pageSize else realEnd)

def targetMunmap (H : MapHost) (s : MapState) (start len : BitVec 64) : Option (BitVec 64 × MapState) :=
  let aligned := targetPageAlign len
  if start &&& ~~~targetPageMask ≠ 0 then some (-22, s)
  else if aligned = 0 then some (-22, s)
  else
    let (realStart, realEnd) := s.unmapRange H start (start + aligned)
    if realStart < realEnd ∧ ¬ H.munmap realStart (realEnd - realStart) then some (-1, s)
    else (s.tables.pageSetFlags start (start + aligned) 0).map fun t => (0, { s with tables := t })

end MapState

end Iqemu64
