import Iqemu64.PageFlags
import Iqemu64.Runs

/-!
# The code of published blocks

`tb_gen_code` asks twice whether the page of a pc is marked for emulation: once under the memory lock of
its own, to decide whether it needs a stub for host code, and once more under the lock that covers the
insertion of the block. Other threads change page flags between the two.
-/

namespace Iqemu64

def needEmulationNolock {C : PageTableConfig} (pages : PageMap C) (address : ℕ) : Bool :=
  pages.pageGetFlags address &&& pageExecOrg ≠ 0

inductive TcPtr where
  | translated
  | host (addr : ℕ)
  deriving DecidableEq, Repr

inductive CodeGenHintType where
  | none | objcClass | other
  deriving DecidableEq, Repr

structure GenEnv where
  hintType : CodeGenHintType
  hintPc : ℕ
  envPc : ℕ
  hintHandler : ℕ
  objcTypes : String
  x64Pc : ℕ
  xloopRetTb : ℕ
  symbolName : Option String
  callbackType : Option String
  solvedName : Option String
  defaultMethodTypes : String
  trampolineForTypes : String → ℕ
  trampolineForName : String → ℕ
  xloopRetTb_ne : xloopRetTb ≠ 0
  trampolineForTypes_ne : ∀ types, trampolineForTypes types ≠ 0
  trampolineForName_ne : ∀ name, trampolineForName name ≠ 0

namespace GenEnv

variable (env : GenEnv)

def stubForSymbol (name : String) : ℕ :=
  if name.startsWith "-" || name.startsWith "+" then env.trampolineForTypes env.defaultMethodTypes
  else env.trampolineForName name

/-- The code of the host for a pc outside the emulated pages. `none` is an abort. -/
def tbTcPtr (pc : ℕ) : Option ℕ :=
  if env.hintType ≠ .none ∧ env.hintPc = env.envPc then
    if env.hintType = .objcClass then
      some (if env.hintHandler ≠ 0 then env.hintHandler else env.trampolineForTypes env.objcTypes)
    else none
  else if pc = env.x64Pc then some env.xloopRetTb
  else
    match env.symbolName with
    | some name => some (env.stubForSymbol name)
    | none =>
      match env.callbackType with
      | some types =>
        if types.startsWith "0" || types.startsWith "1" then some (env.trampolineForName types)
        else some (env.trampolineForTypes types)
      | none => env.solvedName.map env.stubForSymbol

theorem stubForSymbol_ne (name : String) : env.stubForSymbol name ≠ 0 := by
  unfold stubForSymbol
  split_ifs
  · exact env.trampolineForTypes_ne _
  · exact env.trampolineForName_ne _

theorem tbTcPtr_ne {pc ptr : ℕ} (h : env.tbTcPtr pc = some ptr) : ptr ≠ 0 := by
  unfold tbTcPtr at h
  split_ifs at h with hhint hobjc hhandler hret
  · injection h with h
    exact h ▸ hhandler
  · injection h with h
    exact h ▸ env.trampolineForTypes_ne _
  · injection h with h
    exact h ▸ env.xloopRetTb_ne
  · split at h
    · injection h with h
      exact h ▸ env.stubForSymbol_ne _
    · split at h
      · split_ifs at h
        · injection h with h
          exact h ▸ env.trampolineForName_ne _
        · injection h with h
          exact h ▸ env.trampolineForTypes_ne _
      · obtain ⟨name, -, rfl⟩ := Option.map_eq_some_iff.mp h
        exact env.stubForSymbol_ne name

end GenEnv

/-- Where a thread is in `tb_gen_code`: at its first check, at the search for a stub, or at
`tb_gen_code_internal`, with no pointer or with the one of the stub. -/
inductive GenState where
  | idle
  | check (env : GenEnv) (pc : ℕ)
  | search (env : GenEnv) (pc : ℕ)
  | translate (pc : ℕ)
  | link (pc tbTcPtr : ℕ)

/-- A block of the hash table, and whether its page was marked when it was put there. -/
structure PublishedBlock where
  pc : ℕ
  ptr : TcPtr
  marked : Bool
  deriving DecidableEq, Repr

structure PublishState (C : PageTableConfig) where
  pages : PageMap C
  htable : ℕ → Option PublishedBlock
  threads : ℕ → GenState
  published : List PublishedBlock

def tcPtrFor (jit : Bool) (tbTcPtr : ℕ) : TcPtr := if jit then .translated else .host tbTcPtr

inductive PublishEvent where
  | call (thread : ℕ) (env : GenEnv) (pc : ℕ)
  | check (thread : ℕ)
  | search (thread : ℕ)
  | generate (thread : ℕ)
  | overflow (thread : ℕ)
  | pageSetFlags (start stop : ℕ) (flags : BitVec 32)

namespace PublishState

variable {C : PageTableConfig} (I : PageMap.Invalidation C)

def setThread (s : PublishState C) (i : ℕ) (g : GenState) : PublishState C :=
  { s with threads := Function.update s.threads i g }

def publish (s : PublishState C) (pc tbTcPtr : ℕ) : PublishState C :=
  match s.htable pc with
  | some _ => s
  | none =>
    let marked := needEmulationNolock s.pages pc
    let tb : PublishedBlock := ⟨pc, tcPtrFor marked tbTcPtr, marked⟩
    { s with htable := Function.update s.htable pc (some tb), published := s.published ++ [tb] }

/-- The sections under the memory lock. A full code buffer ends a translation without a block, and a
change of flags may take blocks out of the table. -/
inductive Step : PublishState C → PublishEvent → PublishState C → Prop
  | call {s i env pc} (h : s.threads i = .idle) : Step s (.call i env pc) (s.setThread i (.check env pc))
  | checkEmulated {s i env pc} (h : s.threads i = .check env pc)
      (hemu : needEmulationNolock s.pages pc = true) :
      Step s (.check i) (s.setThread i (.translate pc))
  | checkHost {s i env pc} (h : s.threads i = .check env pc)
      (hemu : needEmulationNolock s.pages pc = false) :
      Step s (.check i) (s.setThread i (.search env pc))
  | search {s i env pc ptr} (h : s.threads i = .search env pc) (hptr : env.tbTcPtr pc = some ptr) :
      Step s (.search i) (s.setThread i (.link pc ptr))
  | translate {s i pc} (h : s.threads i = .translate pc) :
      Step s (.generate i) ((s.publish pc 0).setThread i .idle)
  | link {s i pc ptr} (h : s.threads i = .link pc ptr) :
      Step s (.generate i) ((s.publish pc ptr).setThread i .idle)
  | overflow {s i} (h : ∃ pc, s.threads i = .translate pc ∨ ∃ ptr, s.threads i = .link pc ptr) :
      Step s (.overflow i) (s.setThread i .idle)
  | pageSetFlags {s start stop flags pages htable}
      (h : s.pages.pageSetFlags I start stop flags = some pages)
      (hdrop : ∀ pc, htable pc = s.htable pc ∨ htable pc = none) :
      Step s (.pageSetFlags start stop flags) { s with pages, htable }

def RightKind (tb : PublishedBlock) : Prop :=
  tb.ptr ≠ .host 0 ∧ (tb.ptr = .translated ↔ tb.marked = true)

/-- A thread that saw a marked page in its first check still finds it marked. -/
def Careful (s : PublishState C) : PublishEvent → Prop
  | .generate i => ∀ pc, s.threads i = .translate pc → needEmulationNolock s.pages pc = true
  | _ => True

def start (pages : PageMap C) : PublishState C := ⟨pages, fun _ => none, fun _ => .idle, []⟩

theorem rightKind_of_ne {pages : PageMap C} {pc ptr : ℕ}
    (h : ptr = 0 → needEmulationNolock pages pc = true) :
    RightKind ⟨pc, tcPtrFor (needEmulationNolock pages pc) ptr, needEmulationNolock pages pc⟩ := by
  cases hemu : needEmulationNolock pages pc with
  | true => exact ⟨by simp [tcPtrFor], by simp [tcPtrFor]⟩
  | false =>
    refine ⟨?_, by simp [tcPtrFor]⟩
    simp only [tcPtrFor, Bool.false_eq_true, if_false, ne_eq, TcPtr.host.injEq]
    intro hzero
    simp [h hzero] at hemu

variable {I} {s t : PublishState C} {e : PublishEvent}

theorem publish_published (pc ptr : ℕ) {tb : PublishedBlock}
    (h : tb ∈ (s.publish pc ptr).published) :
    tb ∈ s.published ∨
      tb = ⟨pc, tcPtrFor (needEmulationNolock s.pages pc) ptr, needEmulationNolock s.pages pc⟩ := by
  unfold publish at h
  split at h
  · exact .inl h
  · exact (List.mem_append.mp h).imp_right List.mem_singleton.mp

structure Watched (s : PublishState C) : Prop where
  rightKind : ∀ tb ∈ s.published, RightKind tb
  linked : ∀ i pc ptr, s.threads i = .link pc ptr → ptr ≠ 0

theorem watched_start (pages : PageMap C) : (start pages).Watched :=
  ⟨fun _ h => absurd h List.not_mem_nil, fun _ _ _ h => by cases h⟩

theorem Watched.setThread (h : s.Watched) {i : ℕ} {g : GenState}
    (hg : ∀ pc ptr, g = .link pc ptr → ptr ≠ 0) : (s.setThread i g).Watched := by
  refine ⟨h.rightKind, fun j pc ptr hj => ?_⟩
  simp only [PublishState.setThread] at hj
  rcases eq_or_ne j i with rfl | hne
  · rw [Function.update_self] at hj
    exact hg pc ptr hj
  · rw [Function.update_of_ne hne] at hj
    exact h.linked j pc ptr hj

theorem Watched.publish (h : s.Watched) {pc ptr : ℕ}
    (hptr : ptr = 0 → needEmulationNolock s.pages pc = true) : (s.publish pc ptr).Watched := by
  refine ⟨fun tb htb => ?_, fun i pc' ptr' hi => h.linked i pc' ptr' ?_⟩
  · rcases publish_published pc ptr htb with htb | rfl
    · exact h.rightKind tb htb
    · exact rightKind_of_ne hptr
  · unfold PublishState.publish at hi
    split at hi <;> exact hi

theorem Watched.step (h : s.Watched) (hcare : s.Careful e) (ht : Step I s e t) : t.Watched := by
  cases ht with
  | call => exact h.setThread fun pc ptr hg => by cases hg
  | checkEmulated => exact h.setThread fun pc ptr hg => by cases hg
  | checkHost => exact h.setThread fun pc ptr hg => by cases hg
  | search hi hptr =>
    refine h.setThread fun pc ptr hg => ?_
    injection hg with hpc hg
    exact hg ▸ GenEnv.tbTcPtr_ne _ hptr
  | translate hi =>
    exact (h.publish fun _ => hcare _ hi).setThread fun pc ptr hg => by cases hg
  | link hi =>
    exact (h.publish fun hzero => absurd hzero (h.linked _ _ _ hi)).setThread fun pc ptr hg => by cases hg
  | overflow => exact h.setThread fun pc ptr hg => by cases hg
  | pageSetFlags => exact ⟨h.rightKind, h.linked⟩

/-- Where the mark has gone, the new block has no code. -/
theorem publish_null {pc : ℕ} (hnone : s.htable pc = none)
    (hemu : needEmulationNolock s.pages pc = false) :
    ⟨pc, .host 0, false⟩ ∈ (s.publish pc 0).published := by
  unfold PublishState.publish
  simp [hnone, hemu, tcPtrFor]

end PublishState

open PublishState

/-- In every careful run every published block has code of the right kind; from where such a run leads, a
thread whose page has lost its mark since the first check publishes a block without code. -/
theorem published_rightKind_of_careful {C : PageTableConfig} (I : PageMap.Invalidation C)
    (pages : PageMap C) (es : List PublishEvent) (s : PublishState C)
    (hcare : Runs.Along (Step I) Careful (start pages) es)
    (h : Runs.Reaches (Step I) (start pages) es s) :
    (∀ tb ∈ s.published, RightKind tb) ∧
      ∀ i pc t, s.threads i = .translate pc → s.htable pc = none →
        needEmulationNolock s.pages pc = false → Step I s (.generate i) t →
          ∃ tb ∈ t.published, ¬ RightKind tb := by
  refine ⟨(hcare.reaches_invariant (fun _ _ _ hw hc ht => hw.step hc ht) (watched_start pages)
    h).rightKind, fun i pc t hi hnone hemu ht => ?_⟩
  cases ht with
  | translate hi' =>
    obtain rfl : pc = _ := by simpa using hi.symm.trans hi'
    exact ⟨_, publish_null hnone hemu, fun hk => hk.1 rfl⟩
  | link hi' => cases hi.symm.trans hi'

def plainGenEnv : GenEnv where
  hintType := .none
  hintPc := 0
  envPc := 0
  hintHandler := 0
  objcTypes := ""
  x64Pc := 0
  xloopRetTb := 1
  symbolName := some "f"
  callbackType := none
  solvedName := none
  defaultMethodTypes := ""
  trampolineForTypes _ := 1
  trampolineForName _ := 1
  xloopRetTb_ne := Nat.one_ne_zero
  trampolineForTypes_ne _ := Nat.one_ne_zero
  trampolineForName_ne _ := Nat.one_ne_zero

/-- A page at 0x10000 can be marked, and the mark can be taken away. -/
theorem exists_pages_unmark :
    ∃ pages pages' : PageMap aarch64Config, needEmulationNolock pages 0x10000 = true ∧
      pages.pageSetFlags (fun _ _ => []) 0x10000 0x11000 1 = some pages' ∧
      needEmulationNolock pages' 0x10000 = false := by
  obtain ⟨pages, -, hmark⟩ := pageGetFlags_pageSetFlags (fun _ _ => []) aarch64Config_valid
    (RadixTable.empty noPage aarch64Config.vL1Bits aarch64Config.lowerWidths)
    (c := ⟨0x10000, 0x11000, 5⟩) ⟨by decide, by decide⟩
  obtain ⟨pages', hset, hunmark⟩ := pageGetFlags_pageSetFlags (fun _ _ => []) aarch64Config_valid pages
    (c := ⟨0x10000, 0x11000, 1⟩) ⟨by decide, by decide⟩
  refine ⟨pages, pages', ?_, hset, ?_⟩
  · rw [needEmulationNolock, hmark 0x10000 (by decide)]
    decide
  · rw [needEmulationNolock, hunmark 0x10000 (by decide), if_pos (by decide)]
    decide

/-- Another thread unmaps the page between the two checks. -/
theorem published_null_unmarked :
    ∃ (pages : PageMap aarch64Config) (s : PublishState aarch64Config),
      Runs.Reaches (Step fun _ _ => []) (start pages)
        [.call 0 plainGenEnv 0x10000, .check 0, .pageSetFlags 0x10000 0x11000 1, .generate 0] s ∧
      ⟨0x10000, .host 0, false⟩ ∈ s.published := by
  obtain ⟨pages, pages', hmark, hset, hunmark⟩ := exists_pages_unmark
  refine ⟨pages, _, .cons (.call rfl) (.cons (.checkEmulated rfl hmark)
    (.cons (.pageSetFlags hset fun _ => .inl rfl) (.cons (.translate rfl) (.nil _)))), ?_⟩
  exact publish_null rfl hunmark

theorem along_marked {pages : PageMap aarch64Config} (hmark : needEmulationNolock pages 0x10000 = true) :
    Runs.Along (Step fun _ _ => []) Careful (start pages)
      [.call 0 plainGenEnv 0x10000, .check 0, .generate 0] := by
  refine ⟨trivial, fun t ht => ?_⟩
  cases ht with
  | call _ =>
    refine ⟨trivial, fun t ht => ?_⟩
    cases ht with
    | checkEmulated hi hemu =>
      refine ⟨fun pc hpc => ?_, fun _ _ => trivial⟩
      obtain rfl : _ = pc := by simpa [PublishState.setThread] using hpc
      exact hemu
    | checkHost hi hemu =>
      injection hi with henv hpc
      subst hpc
      exact absurd (hmark.symm.trans hemu) (by decide)

theorem published_rightKind_of_careful_marked :
    ∃ (pages : PageMap aarch64Config) (s : PublishState aarch64Config),
      Runs.Reaches (Step fun _ _ => []) (start pages)
        [.call 0 plainGenEnv 0x10000, .check 0, .generate 0] s ∧
      s.published.length = 1 ∧ ∀ tb ∈ s.published, RightKind tb := by
  obtain ⟨pages, -, hmark, -, -⟩ := exists_pages_unmark
  have hrun : ∃ s, Runs.Reaches (Step fun _ _ => []) (start pages)
      [.call 0 plainGenEnv 0x10000, .check 0, .generate 0] s ∧ s.published.length = 1 :=
    ⟨_, .cons (.call rfl) (.cons (.checkEmulated rfl hmark) (.cons (.translate rfl) (.nil _))), rfl⟩
  obtain ⟨s, hs, hlen⟩ := hrun
  exact ⟨pages, s, hs, hlen,
    (published_rightKind_of_careful (fun _ _ => []) pages _ s (along_marked hmark) hs).1⟩

end Iqemu64
