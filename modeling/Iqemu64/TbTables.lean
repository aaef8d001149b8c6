import Mathlib.Data.BitVec
import Iqemu64.HeapList

/-!
# The tables of translation blocks

A block is found by its guest address through a hash table, and by the pages that its guest code is on
through lists that thread through the blocks themselves. A link of these lists is a pointer to a block with
the index of the page in its low bit: the pointer to block `k` with index `n` is the number `2 * k + n`.
-/

namespace Iqemu64
open Function

def targetPageSize : BitVec 64 := 0x1000
def targetPageMask : BitVec 64 := ~~~0xfff

def pageOf (a : BitVec 64) : BitVec 64 := a &&& targetPageMask

structure TbInfo where
  pc : BitVec 64
  size : BitVec 16
  tcPtr : BitVec 64
  pageAddr0 : BitVec 64
  pageAddr1 : Option (BitVec 64)
  invalid : Bool

def TbInfo.pageAddr (tb : TbInfo) (n : ℕ) : Option (BitVec 64) :=
  if n = 0 then some tb.pageAddr0 else tb.pageAddr1

/-- `phys_page2` as the generators compute it. In user mode physical addresses are guest addresses. -/
def secondPage (pc : BitVec 64) (size : BitVec 16) : Option (BitVec 64) :=
  let virtPage2 := pageOf (pc + size.setWidth 64 - 1)
  if pageOf pc ≠ virtPage2 then some virtPage2 else none

def tbCmp (a b : TbInfo) : Bool :=
  a.pc = b.pc && a.pageAddr0 = b.pageAddr0 && a.pageAddr1 = b.pageAddr1

structure TbTables where
  tb : ℕ → TbInfo
  pageNext : ℕ → Option ℕ
  firstTb : BitVec 64 → Option ℕ
  flags : BitVec 64 → BitVec 32
  htable : List ℕ
  next : ℕ

namespace TbTables

def bound (s : TbTables) : ℕ := 2 * s.next + 1

def tbPageAdd (hostPageMask : BitVec 64) (s : TbTables) (k n : ℕ) (page : BitVec 64) : TbTables :=
  { s with
    pageNext := update s.pageNext (2 * k + n) (s.firstTb page)
    firstTb := update s.firstTb page (some (2 * k + n))
    flags := fun q =>
      if (s.flags page).getLsbD 1 ∧ q &&& hostPageMask = page &&& hostPageMask then
        s.flags q &&& ~~~0x2
      else s.flags q }

/-- `tb_page_remove`. `none` is `g_assert_not_reached`. -/
def tbPageRemove (s : TbTables) (page : BitVec 64) (k : ℕ) : Option TbTables :=
  (HeapList.unlink (fun a => a / 2 = k) s.pageNext s.bound (s.firstTb page)).map fun (head, next) =>
    { s with firstTb := update s.firstTb page head, pageNext := next }

def tbPagesRemove (s : TbTables) (k : ℕ) : Option TbTables :=
  (s.tbPageRemove (s.tb k).pageAddr0 k).bind fun t =>
    match (s.tb k).pageAddr1 with
    | none => some t
    | some page => t.tbPageRemove page k

def tbLinkPage (hostPageMask : BitVec 64) (s : TbTables) (k : ℕ) : Option (ℕ × TbTables) :=
  let s := s.tbPageAdd hostPageMask k 0 (s.tb k).pageAddr0
  let s := match (s.tb k).pageAddr1 with
    | none => s
    | some page => s.tbPageAdd hostPageMask k 1 page
  match s.htable.find? fun j => tbCmp (s.tb j) (s.tb k) with
  | none => some (k, { s with htable := k :: s.htable })
  | some existing => (s.tbPagesRemove k).map fun t => (existing, t)

/-- A new block for `pc`, with the size that its memory has, linked in. A block that exists already is
returned and the new one given back. The address `-1` stands for one that is not in memory: its block is
neither linked in nor cached. -/
def addBlock (hostPageMask : BitVec 64) (s : TbTables) (pc : BitVec 64) (size : BitVec 16)
    (tcPtr : BitVec 64) : Option (ℕ × TbTables) :=
  let k := s.next
  if pc = -1 then
    let info : TbInfo := ⟨pc, size, tcPtr, -1, none, false⟩
    some (k, { s with tb := update s.tb k info, next := k + 1 })
  else
    let info : TbInfo := ⟨pc, size, tcPtr, pageOf pc, secondPage pc size, false⟩
    ({ s with tb := update s.tb k info, next := k + 1 }.tbLinkPage hostPageMask k).map
      fun (r, t) => (r, if r = k then t else { t with next := k })

def doTbPhysInvalidate (s : TbTables) (k : ℕ) (rmFromPageList : Bool) : Option TbTables :=
  let s := { s with tb := update s.tb k { s.tb k with invalid := true } }
  if k ∉ s.htable then some s
  else
    let s := { s with htable := s.htable.erase k }
    if rmFromPageList then s.tbPagesRemove k else some s

def invalidatePageLoop : ℕ → TbTables → Option ℕ → Option TbTables
  | _, s, none => some s
  | 0, _, some _ => none
  | fuel + 1, s, some a =>
    (s.doTbPhysInvalidate (a / 2) false).bind fun t => invalidatePageLoop fuel t (t.pageNext a)

def tbInvalidatePhysPage (s : TbTables) (addr : BitVec 64) : Option TbTables :=
  (invalidatePageLoop s.bound s (s.firstTb (pageOf addr))).map fun t =>
    { t with firstTb := update t.firstTb (pageOf addr) none }

def tbRange (tb : TbInfo) (n : ℕ) : BitVec 64 × BitVec 64 :=
  if n = 0 then
    let tbStart := tb.pageAddr0 + (tb.pc &&& ~~~targetPageMask)
    (tbStart, tbStart + tb.size.setWidth 64)
  else
    let tbStart := tb.pageAddr1.getD (-1)
    (tbStart, tbStart + ((tb.pc + tb.size.setWidth 64) &&& ~~~targetPageMask))

def invalidateRangeLoop (start stop : BitVec 64) : ℕ → TbTables → Option ℕ → Option TbTables
  | _, s, none => some s
  | 0, _, some _ => none
  | fuel + 1, s, some a =>
    let (tbStart, tbEnd) := tbRange (s.tb (a / 2)) (a % 2)
    if ¬ (tbEnd ≤ start ∨ stop ≤ tbStart) then
      (s.doTbPhysInvalidate (a / 2) true).bind fun t =>
        invalidateRangeLoop start stop fuel t (t.pageNext a)
    else invalidateRangeLoop start stop fuel s (s.pageNext a)

def tbInvalidatePhysPageRange (s : TbTables) (start stop : BitVec 64) : Option TbTables :=
  invalidateRangeLoop start stop s.bound s (s.firstTb (pageOf start))

/-- `do_tb_flush`: the hash table is emptied, `page_flush_tb` drops all lists, and the blocks' memory is
used again. -/
def tbFlush (s : TbTables) : TbTables :=
  { s with htable := [], firstTb := fun _ => none, next := 0 }

def tbLookupCmp (tb : TbInfo) (pc : BitVec 64) : Bool :=
  tb.pc = pc && tb.pageAddr0 = pageOf pc &&
    (tb.pageAddr1 = none || tb.pageAddr1 = some (pageOf pc + targetPageSize))

/-- `tb_htable_lookup`. All blocks for one `pc` have one hash. -/
def tbHtableLookup (s : TbTables) (pc : BitVec 64) : Option ℕ :=
  if pc = -1 then none else s.htable.find? fun k => tbLookupCmp (s.tb k) pc

def empty (flags : BitVec 64 → BitVec 32) : TbTables where
  tb := fun _ => ⟨0, 0, 0, 0, none, false⟩
  pageNext := fun _ => none
  firstTb := fun _ => none
  flags := flags
  htable := []
  next := 0

end TbTables

end Iqemu64
