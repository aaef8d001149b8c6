import Iqemu64.ByteMemory

/-!
# Symbols by name

`solveSymbolByHeader` looks a symbol up in a loaded image. A first pass over the load commands finds
the slide and the place of the link-edit segment, a second one searches the symbol table.
-/

namespace Iqemu64
open ByteMemory List

structure SegmentCommand where
  vmaddr : BitVec 64
  fileoff : BitVec 64

structure SymtabCommand where
  symoff : BitVec 32
  nsyms : BitVec 32
  stroff : BitVec 32

inductive LoadCommand where
  | text (scp : SegmentCommand)
  | linkedit (scp : SegmentCommand)
  | segment (segname : String) (scp : SegmentCommand)
  | symtab (sm : SymtabCommand)
  | other

structure MachHeader where
  address : BitVec 64
  magic : BitVec 32
  commands : List LoadCommand

namespace LoadCommand

def text? : LoadCommand → Option SegmentCommand
  | text scp => some scp
  | _ => none

def linkedit? : LoadCommand → Option SegmentCommand
  | linkedit scp => some scp
  | _ => none

def symtab? : LoadCommand → Option SymtabCommand
  | symtab sm => some sm
  | _ => none

end LoadCommand

structure LookupBases where
  slide : BitVec 64 := 0
  fLinkEditBase : BitVec 64 := 0

def LookupBases.scan (header : BitVec 64) (b : LookupBases) : LoadCommand → LookupBases
  | .text scp => { b with slide := header - scp.vmaddr }
  | .linkedit scp => { b with fLinkEditBase := scp.vmaddr + b.slide - scp.fileoff }
  | _ => b

/-- Whether `strcmp` finds a name at an address. -/
def nameAt (mem : Mem) : List UInt8 → BitVec 64 → Bool
  | [], a => mem a.toNat == 0
  | c :: name, a => mem a.toNat == c && nameAt mem name (a + 1)

section

variable (mem : Mem) (base : BitVec 64) (sm : SymtabCommand) (n : ℕ)

def symbolEntry : BitVec 64 := base + sm.symoff.setWidth 64 + BitVec.ofNat 64 (16 * n)

def symbolName : BitVec 64 :=
  base + sm.stroff.setWidth 64 + BitVec.ofNat 64 (mem.loadWord (symbolEntry base sm n).toNat 4)

def symbolValue : BitVec 64 :=
  BitVec.ofNat 64 (mem.loadWord (symbolEntry base sm n + 8).toNat 8)

/-- A symbol that the image defines: neither a debugging entry nor an undefined one. -/
def definesSymbol : Bool :=
  let type := mem (symbolEntry base sm n + 4).toNat
  type &&& 0xe0 == 0 && type &&& 0x0e != 0

def findSymbol (name : List UInt8) : Option ℕ :=
  (range sm.nsyms.toNat).find? fun n => nameAt mem name (symbolName mem base sm n)

def findDefined (name : List UInt8) : Option ℕ :=
  (range sm.nsyms.toNat).find? fun n =>
    nameAt mem name (symbolName mem base sm n) && definesSymbol mem base sm n

end

def searchSymtabs (mem : Mem) (b : LookupBases) (name : List UInt8) :
    List LoadCommand → BitVec 64
  | [] => 0
  | .symtab sm :: cmds =>
    if b.fLinkEditBase = 0 then 0
    else match findSymbol mem b.fLinkEditBase sm name with
      | some n => symbolValue mem b.fLinkEditBase sm n + b.slide
      | none => searchSymtabs mem b name cmds
  | _ :: cmds => searchSymtabs mem b name cmds

/-- `solve_symbol_by_header`. -/
def solveSymbolByHeader (mem : Mem) (header : MachHeader) (name : List UInt8) : BitVec 64 :=
  if header.magic ∉ [0xfeedface, 0xcefaedfe, 0xfeedfacf, 0xcffaedfe] then 0
  else
    let bases := header.commands.foldl (LookupBases.scan header.address) {}
    searchSymtabs mem bases name header.commands

/-- A header with one text segment and at most one link-edit segment and symbol table, where the
file lies in memory above address zero. -/
structure MachHeader.WellFormed (header : MachHeader) (text : SegmentCommand)
    (linkedit : Option SegmentCommand) (symtab : Option SymtabCommand) : Prop where
  magic : header.magic = 0xfeedfacf
  texts : header.commands.filterMap LoadCommand.text? = [text]
  linkedits : header.commands.filterMap LoadCommand.linkedit? = linkedit.toList
  symtabs : header.commands.filterMap LoadCommand.symtab? = symtab.toList
  located : symtab.isSome → linkedit.isSome
  above : ∀ scp ∈ linkedit, scp.vmaddr + (header.address - text.vmaddr) - scp.fileoff ≠ 0

/-- Where the defined symbol of a name is, in terms that no order of commands enters. -/
def symbolAddress (mem : Mem) (header : BitVec 64) (text : SegmentCommand)
    (linkedit : Option SegmentCommand) (symtab : Option SymtabCommand) (name : List UInt8) :
    Option (BitVec 64) :=
  let slide := header - text.vmaddr
  linkedit.bind fun scp => symtab.bind fun sm =>
    let base := scp.vmaddr + slide - scp.fileoff
    (findDefined mem base sm name).map fun n => symbolValue mem base sm n + slide

section

variable {mem : Mem} {header s : BitVec 64} {b : LookupBases} {cmds : List LoadCommand}
  {name : List UInt8}

/-- Before the link-edit segment the scan sets the slide only. -/
theorem scan_no_linkedit (h : cmds.filterMap LoadCommand.linkedit? = []) :
    cmds.foldl (LookupBases.scan header) b =
      { b with
        slide := (cmds.filterMap LoadCommand.text?).foldl (fun _ t => header - t.vmaddr) b.slide } := by
  induction cmds generalizing b with
  | nil => rfl
  | cons c cmds ih =>
    cases c with
    | linkedit scp => exact absurd h (cons_ne_nil _ _)
    | _ => exact ih h

/-- Once the slide is that of each text segment to come, it stays. -/
theorem scan_same_slide (h : ∀ t ∈ cmds.filterMap LoadCommand.text?, header - t.vmaddr = b.slide) :
    cmds.foldl (LookupBases.scan header) b =
      { b with
        fLinkEditBase := (cmds.filterMap LoadCommand.linkedit?).foldl
          (fun _ t => t.vmaddr + b.slide - t.fileoff) b.fLinkEditBase } := by
  induction cmds generalizing b with
  | nil => rfl
  | cons c cmds ih =>
    cases c with
    | text scp =>
      obtain ⟨hscp, hcmds⟩ := forall_mem_cons.mp h
      have hkeep : LookupBases.scan header b (.text scp) = b := by
        rw [LookupBases.scan, hscp]
      rw [foldl_cons, hkeep, ih hcmds]
      rfl
    | _ => exact ih h

theorem searchSymtabs_eq (hbase : cmds.filterMap LoadCommand.symtab? ≠ [] → b.fLinkEditBase ≠ 0) :
    searchSymtabs mem b name cmds =
      ((cmds.filterMap LoadCommand.symtab?).findSome? fun sm =>
        (findSymbol mem b.fLinkEditBase sm name).map fun n =>
          symbolValue mem b.fLinkEditBase sm n + b.slide).getD 0 := by
  induction cmds with
  | nil => rfl
  | cons c cmds ih =>
    cases c with
    | symtab sm =>
      have hb : b.fLinkEditBase ≠ 0 := hbase (by simp [LoadCommand.symtab?])
      have hcons : (LoadCommand.symtab sm :: cmds).filterMap LoadCommand.symtab? =
          sm :: cmds.filterMap LoadCommand.symtab? := rfl
      rw [searchSymtabs, if_neg hb, hcons, findSome?_cons]
      cases findSymbol mem b.fLinkEditBase sm name with
      | some n => rfl
      | none => exact ih fun _ => hb
    | _ => exact ih hbase

/-- If no undefined entry of the name comes before the defined ones, the search finds a defined
one. -/
theorem findSymbol_eq_findDefined {base : BitVec 64} {sm : SymtabCommand}
    (h : ∀ n < sm.nsyms.toNat, nameAt mem name (symbolName mem base sm n) →
      ∃ m ≤ n, nameAt mem name (symbolName mem base sm m) ∧ definesSymbol mem base sm m) :
    findSymbol mem base sm name = findDefined mem base sm name := by
  unfold findSymbol findDefined
  cases hfind : (range sm.nsyms.toNat).find? fun n => nameAt mem name (symbolName mem base sm n) with
  | none =>
    refine (find?_eq_none.mpr fun n hn hdef => ?_).symm
    exact find?_eq_none.mp hfind n hn (Bool.and_eq_true_iff.mp hdef).1
  | some n =>
    obtain ⟨hn, hlt, hfirst⟩ := find?_range_eq_some.mp hfind
    have hnsyms : n < sm.nsyms.toNat := mem_range.mp hlt
    obtain ⟨m, hm, hname, hdef⟩ := h n hnsyms hn
    obtain rfl : m = n := by
      by_contra hne
      exact absurd hname (by simpa using hfirst m (by omega))
    refine (find?_range_eq_some.mpr ⟨by simp [hname, hdef], hlt, fun j hj => ?_⟩).symm
    simp [hfirst j hj]

end

def TextFirst (cmds : List LoadCommand) : Prop :=
  ∃ before after, cmds = before ++ after ∧ before.filterMap LoadCommand.linkedit? = [] ∧
    after.filterMap LoadCommand.text? = []

/-- For every order of the load commands with the text segment before the link-edit segment, and for
every order at all in an image that is not slid, the lookup finds the defined symbol of the name,
if no undefined entry of that name comes before it in the symbol table. -/
theorem solveSymbolByHeader_perm {mem : Mem} {header : MachHeader} {text : SegmentCommand}
    {linkedit : Option SegmentCommand} {symtab : Option SymtabCommand} {name : List UInt8}
    (hw : header.WellFormed text linkedit symtab)
    (hdef : ∀ scp ∈ linkedit, ∀ sm ∈ symtab,
      let base := scp.vmaddr + (header.address - text.vmaddr) - scp.fileoff
      ∀ n < sm.nsyms.toNat, nameAt mem name (symbolName mem base sm n) →
        ∃ m ≤ n, nameAt mem name (symbolName mem base sm m) ∧ definesSymbol mem base sm m)
    {cmds : List LoadCommand} (hperm : header.commands.Perm cmds)
    (hord : TextFirst cmds ∨ header.address = text.vmaddr) :
    solveSymbolByHeader mem { header with commands := cmds } name =
      (symbolAddress mem header.address text linkedit symtab name).getD 0 := by
  have htext : cmds.filterMap LoadCommand.text? = [text] :=
    singleton_perm.mp (hw.texts ▸ hperm.filterMap LoadCommand.text?) |>.symm
  have hlink : cmds.filterMap LoadCommand.linkedit? = linkedit.toList := by
    have hp := hw.linkedits ▸ hperm.filterMap LoadCommand.linkedit?
    cases linkedit with
    | none => exact nil_perm.mp hp
    | some scp => exact (singleton_perm.mp hp).symm
  have hsym : cmds.filterMap LoadCommand.symtab? = symtab.toList := by
    have hp := hw.symtabs ▸ hperm.filterMap LoadCommand.symtab?
    cases symtab with
    | none => exact nil_perm.mp hp
    | some sm => exact (singleton_perm.mp hp).symm
  have hscan : cmds.foldl (LookupBases.scan header.address) {} =
      { slide := header.address - text.vmaddr
        fLinkEditBase := linkedit.toList.foldl
          (fun _ t => t.vmaddr + (header.address - text.vmaddr) - t.fileoff) 0 } := by
    rcases hord with ⟨before, after, rfl, hbefore, hafter⟩ | hzero
    · rw [filterMap_append, hafter, append_nil] at htext
      rw [filterMap_append, hbefore, nil_append] at hlink
      rw [foldl_append, scan_no_linkedit hbefore, scan_same_slide (by simp [hafter]), htext,
        hlink]
      rfl
    · rw [scan_same_slide (by simp [htext, hzero]), hlink, hzero, BitVec.sub_self]
      rfl
  have hmagic : ¬ header.magic ∉ [0xfeedface, 0xcefaedfe, 0xfeedfacf, 0xcffaedfe] := by
    rw [hw.magic]
    decide
  rw [solveSymbolByHeader, if_neg hmagic]
  simp only [hscan]
  cases linkedit with
  | none =>
    have hnone : symtab = none := by
      cases symtab with
      | none => rfl
      | some sm => exact absurd (hw.located rfl) (by decide)
    subst hnone
    rw [searchSymtabs_eq (by simp [hsym]), hsym]
    rfl
  | some scp =>
    rw [searchSymtabs_eq fun _ => hw.above scp rfl, hsym]
    cases symtab with
    | none => rfl
    | some sm =>
      simp only [Option.toList_some, findSome?_cons, findSome?_nil, foldl_cons,
        foldl_nil, symbolAddress, Option.bind_some]
      rw [findSymbol_eq_findDefined (hdef scp rfl sm rfl)]
      cases findDefined mem _ sm name <;> rfl

/-- An image with one symbol, in memory at twice the address it was linked for. -/
def slidImage (commands : List LoadCommand) : MachHeader :=
  { address := 0x2000, magic := 0xfeedfacf, commands }

def slidText : SegmentCommand := { vmaddr := 0x1000, fileoff := 0 }

def slidLinkedit : SegmentCommand := { vmaddr := 0x3000, fileoff := 0x100 }

def slidSymtab : SymtabCommand := { symoff := 0, nsyms := 1, stroff := 0x10 }

def slidMemory : Mem := fun a =>
  if a = 0x3f04 then 0x0f else if a = 0x3f08 then 0x10 else if a = 0x3f10 then 0x66 else 0

theorem solveSymbolByHeader_slid :
    solveSymbolByHeader slidMemory
      (slidImage [.symtab slidSymtab, .text slidText, .linkedit slidLinkedit]) [0x66] = 0x1010 := by
  have hw : (slidImage [.text slidText, .linkedit slidLinkedit, .symtab slidSymtab]).WellFormed
      slidText (some slidLinkedit) (some slidSymtab) :=
    { magic := rfl, texts := rfl, linkedits := rfl, symtabs := rfl, located := fun _ => rfl
      above := by rintro _ ⟨⟩; decide }
  refine (solveSymbolByHeader_perm hw ?_ (perm_append_comm : ([_, _] ++ [_]).Perm ([_] ++ [_, _]))
    (.inl ⟨[.symtab slidSymtab, .text slidText], [.linkedit slidLinkedit], rfl, rfl, rfl⟩)).trans
    (by decide)
  rintro _ ⟨⟩ _ ⟨⟩ base n hn -
  obtain rfl : n = 0 := Nat.lt_one_iff.mp hn
  exact ⟨0, le_rfl, by decide, by decide⟩

/-- With the link-edit segment first the symbol table is looked for where it was linked for. -/
theorem linkedit_first_not_found :
    solveSymbolByHeader slidMemory
        (slidImage [.linkedit slidLinkedit, .text slidText, .symtab slidSymtab]) [0x66] = 0 ∧
      symbolAddress slidMemory 0x2000 slidText (some slidLinkedit) (some slidSymtab) [0x66] =
        some 0x1010 := by
  decide

end Iqemu64
