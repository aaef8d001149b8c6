import Iqemu64.Runs
import Mathlib.Data.BitVec
import Mathlib.Tactic

/-!
# Jump caches and invalidation

Each CPU has a cache of blocks in front of the hash table. A thread in `tb_find` reads its cache, then
the table, then translates, and at last stores what it got into its cache; between these accesses
another thread may invalidate the block. Each step below is one access to shared memory. The memory
lock is held from the start of an invalidation to its end, and by a translation.
-/

namespace Iqemu64
open Function

structure CodeBlock where
  addr : ℕ
  pc : BitVec 64
  deriving DecidableEq, Repr

def tbJmpCacheHashFunc (pc : BitVec 64) : BitVec 64 := (pc ^^^ (pc >>> 12)) &&& 0xfff

/-- The next access of a thread in `tb_find`. -/
inductive FindState where
  | idle
  | readCache (pc : BitVec 64)
  | readTable (pc : BitVec 64)
  | generate (pc : BitVec 64)
  | store (pc : BitVec 64) (tb : CodeBlock)
  deriving DecidableEq, Repr

/-- The next access of a thread in `do_tb_phys_invalidate`: the block is marked and will be taken out of
the hash table, the caches of `cpus` are still to be looked at, or the cache of `cpu` has been found to
hold the block. -/
inductive InvalState where
  | idle
  | marked (tb : CodeBlock)
  | clearing (tb : CodeBlock) (cpus : List ℕ)
  | matched (tb : CodeBlock) (cpu : ℕ) (cpus : List ℕ)
  deriving DecidableEq, Repr

structure JumpCacheState where
  cpus : List ℕ
  nextAddr : ℕ
  invalid : CodeBlock → Bool
  htable : BitVec 64 → Option CodeBlock
  jmpCache : ℕ → BitVec 64 → Option CodeBlock
  finders : ℕ → FindState
  inval : InvalState

inductive JumpCacheEvent where
  | find (cpu : ℕ) (pc : BitVec 64)
  | findStep (cpu : ℕ)
  | invalidate (tb : CodeBlock)
  | invalStep
  deriving DecidableEq, Repr

namespace JumpCacheState

def start (cpus : List ℕ) : JumpCacheState where
  cpus := cpus
  nextAddr := 0
  invalid _ := false
  htable _ := none
  jmpCache _ _ := none
  finders _ := .idle
  inval := .idle

variable (s : JumpCacheState)

def setFinder (cpu : ℕ) (f : FindState) : JumpCacheState :=
  { s with finders := update s.finders cpu f }

def setCache (cpu : ℕ) (i : BitVec 64) (tb : Option CodeBlock) : JumpCacheState :=
  { s with jmpCache := update s.jmpCache cpu (update (s.jmpCache cpu) i tb) }

/-- `tb_gen_code` up to the insertion: a block that is in the table already is taken instead of the new
one. -/
def genCode (pc : BitVec 64) : JumpCacheState × CodeBlock :=
  match s.htable pc with
  | some tb => (s, tb)
  | none =>
    let tb : CodeBlock := ⟨s.nextAddr, pc⟩
    ({ s with
        nextAddr := s.nextAddr + 1
        invalid := update s.invalid tb false
        htable := update s.htable pc (some tb) }, tb)

def findStep (cpu : ℕ) : Option JumpCacheState :=
  match s.finders cpu with
  | .idle => none
  | .readCache pc =>
    match s.jmpCache cpu (tbJmpCacheHashFunc pc) with
    | some tb => some (s.setFinder cpu (if tb.pc = pc then .idle else .readTable pc))
    | none => some (s.setFinder cpu (.readTable pc))
  | .readTable pc =>
    match s.htable pc with
    | some tb => some (s.setFinder cpu (.store pc tb))
    | none => some (s.setFinder cpu (.generate pc))
  | .generate pc =>
    if s.inval = .idle then some ((s.genCode pc).1.setFinder cpu (.store pc (s.genCode pc).2)) else none
  | .store pc tb => some ((s.setCache cpu (tbJmpCacheHashFunc pc) (some tb)).setFinder cpu .idle)

def invalStep : Option JumpCacheState :=
  match s.inval with
  | .idle => none
  | .marked tb =>
    if s.htable tb.pc = some tb then
      some { s with htable := update s.htable tb.pc none, inval := .clearing tb s.cpus }
    else some { s with inval := .idle }
  | .clearing _ [] => some { s with inval := .idle }
  | .clearing tb (cpu :: cpus) =>
    if s.jmpCache cpu (tbJmpCacheHashFunc tb.pc) = some tb then
      some { s with inval := .matched tb cpu cpus }
    else some { s with inval := .clearing tb cpus }
  | .matched tb cpu cpus =>
    some { s.setCache cpu (tbJmpCacheHashFunc tb.pc) none with inval := .clearing tb cpus }

def step : JumpCacheEvent → Option JumpCacheState
  | .find cpu pc =>
    if cpu ∈ s.cpus ∧ s.finders cpu = .idle then some (s.setFinder cpu (.readCache pc)) else none
  | .findStep cpu => s.findStep cpu
  | .invalidate tb =>
    if s.inval = .idle then
      some { s with invalid := update s.invalid tb true, inval := .marked tb }
    else none
  | .invalStep => s.invalStep

def Step (s : JumpCacheState) (e : JumpCacheEvent) (t : JumpCacheState) : Prop := s.step e = some t

/-- What `tb_lookup__cpu_state` returns if nothing else happens meanwhile. -/
def lookup (cpu : ℕ) (pc : BitVec 64) : Option CodeBlock :=
  match s.jmpCache cpu (tbJmpCacheHashFunc pc) with
  | some tb => if tb.pc = pc then some tb else s.htable pc
  | none => s.htable pc

/-- No cache holds a block whose invalidation is over, and no lookup returns it. -/
def Clean : Prop :=
  s.inval = .idle → ∀ tb, s.invalid tb = true →
    (∀ cpu i, s.jmpCache cpu i ≠ some tb) ∧ ∀ cpu pc, s.lookup cpu pc ≠ some tb

end JumpCacheState

def InvalState.Pending (cpu : ℕ) (tb : CodeBlock) : InvalState → Prop
  | .clearing tb' cpus => tb' = tb ∧ cpu ∈ cpus
  | .matched tb' cpu' cpus => tb' = tb ∧ (cpu = cpu' ∨ cpu ∈ cpus)
  | _ => False

namespace JumpCacheState

variable (s : JumpCacheState)

def Reachable (cpu : ℕ) (tb : CodeBlock) : Prop :=
  s.htable tb.pc = some tb ∨ s.inval.Pending cpu tb

/-- A block is stored into a cache only before its invalidation has looked at that cache. -/
def Careful (s : JumpCacheState) : JumpCacheEvent → Prop
  | .findStep cpu => ∀ pc tb, s.finders cpu = .store pc tb → s.Reachable cpu tb
  | _ => True

structure Watched : Prop where
  table : ∀ pc tb, s.htable pc = some tb → tb.pc = pc
  valid : ∀ tb, s.htable tb.pc = some tb → s.invalid tb = true → s.inval = .marked tb
  finding : ∀ cpu, s.finders cpu ≠ .idle → cpu ∈ s.cpus
  held : ∀ cpu pc tb, s.finders cpu = .store pc tb → tb.pc = pc
  cached : ∀ cpu i tb, s.jmpCache cpu i = some tb →
    cpu ∈ s.cpus ∧ i = tbJmpCacheHashFunc tb.pc ∧ s.Reachable cpu tb

theorem watched_start (cpus : List ℕ) : (start cpus).Watched := by
  refine ⟨?_, ?_, ?_, ?_, ?_⟩ <;> simp [start]

variable {s} {t : JumpCacheState}

theorem Watched.clean (h : s.Watched) : s.Clean := by
  intro hidle tb hinvalid
  have hout : s.htable tb.pc ≠ some tb := fun htb => by
    have := h.valid tb htb hinvalid
    rw [hidle] at this
    cases this
  have hcache : ∀ cpu i, s.jmpCache cpu i ≠ some tb := by
    intro cpu i hc
    obtain ⟨-, -, htb | hpending⟩ := h.cached cpu i tb hc
    · exact hout htb
    · rw [hidle] at hpending
      exact hpending
  refine ⟨hcache, fun cpu pc hl => ?_⟩
  have htable : s.htable pc ≠ some tb := fun htb => hout (by rwa [h.table pc tb htb])
  unfold lookup at hl
  split at hl
  · rename_i tb' hc
    split_ifs at hl with hpc
    · injection hl with hl
      exact hcache cpu _ (hl ▸ hc)
    · exact htable hl
  · exact htable hl

theorem setFinder_self (cpu : ℕ) (f : FindState) : (s.setFinder cpu f).finders cpu = f :=
  update_self _ _ _

variable {cpu : ℕ}

theorem setFinder_of_ne {c : ℕ} (h : c ≠ cpu) (f : FindState) :
    (s.setFinder cpu f).finders c = s.finders c := update_of_ne h _ _

theorem Watched.setFinder (h : s.Watched) {f : FindState} (hcpu : cpu ∈ s.cpus)
    (hf : ∀ pc tb, f = .store pc tb → tb.pc = pc) : (s.setFinder cpu f).Watched := by
  refine ⟨h.table, h.valid, fun c hc => ?_, fun c pc tb hc => ?_, h.cached⟩
  · rcases eq_or_ne c cpu with rfl | hne
    · exact hcpu
    · rw [setFinder_of_ne hne] at hc
      exact h.finding c hc
  · rcases eq_or_ne c cpu with rfl | hne
    · rw [setFinder_self] at hc
      exact hf pc tb hc
    · rw [setFinder_of_ne hne] at hc
      exact h.held c pc tb hc

variable {tb : CodeBlock}

theorem setCache_cases {c : ℕ} {i j : BitVec 64} {v : Option CodeBlock}
    (h : (s.setCache cpu i v).jmpCache c j = some tb) :
    (c = cpu ∧ j = i ∧ v = some tb) ∨ s.jmpCache c j = some tb := by
  simp only [setCache] at h
  by_cases hc : c = cpu
  · subst hc
    rw [update_self] at h
    by_cases hj : j = i
    · subst hj
      rw [update_self] at h
      exact .inl ⟨rfl, rfl, h⟩
    · rw [update_of_ne hj] at h
      exact .inr h
  · rw [update_of_ne hc] at h
    exact .inr h

theorem Watched.setCache (h : s.Watched) {i : BitVec 64} {v : Option CodeBlock}
    (hv : ∀ tb, v = some tb → cpu ∈ s.cpus ∧ i = tbJmpCacheHashFunc tb.pc ∧ s.Reachable cpu tb) :
    (s.setCache cpu i v).Watched := by
  refine ⟨h.table, h.valid, h.finding, h.held, fun c j tb hc => ?_⟩
  rcases setCache_cases hc with ⟨rfl, rfl, hv'⟩ | hc
  · exact hv tb hv'
  · exact h.cached c j tb hc

theorem genCode_pc (h : s.Watched) (pc : BitVec 64) : (s.genCode pc).2.pc = pc := by
  unfold genCode
  cases hpc : s.htable pc with
  | some tb => exact h.table pc tb hpc
  | none => rfl

theorem Watched.genCode (h : s.Watched) (hidle : s.inval = .idle) (pc : BitVec 64) :
    (s.genCode pc).1.Watched ∧ (s.genCode pc).1.cpus = s.cpus := by
  unfold JumpCacheState.genCode
  cases hpc : s.htable pc with
  | some tb => exact ⟨h, rfl⟩
  | none =>
    refine ⟨⟨fun p tb htb => ?_, fun tb htb hinv => ?_, h.finding, h.held, fun c i tb hc => ?_⟩, rfl⟩
    · rcases eq_or_ne p pc with rfl | hne
      · simp only [update_self, Option.some.injEq] at htb
        rw [← htb]
      · simp only [update_of_ne hne] at htb
        exact h.table p tb htb
    · rcases eq_or_ne tb ⟨s.nextAddr, pc⟩ with rfl | hne
      · simp at hinv
      · have hold : s.htable tb.pc = some tb := by
          by_cases htbpc : tb.pc = pc
          · simp only [htbpc, update_self, Option.some.injEq] at htb
            exact absurd htb.symm hne
          · simpa only [update_of_ne htbpc] using htb
        simp only [update_of_ne hne] at hinv
        exact h.valid tb hold hinv
    · obtain ⟨hc', hi, hr⟩ := h.cached c i tb hc
      refine ⟨hc', hi, ?_⟩
      rcases hr with htb | hp
      · have hne : tb.pc ≠ pc := fun hpc' => by simp [hpc', hpc] at htb
        exact .inl (by simpa only [update_of_ne hne] using htb)
      · rw [hidle] at hp
        exact hp.elim

theorem Watched.findStep (h : s.Watched) (hcare : s.Careful (.findStep cpu))
    (ht : s.findStep cpu = some t) : t.Watched := by
  unfold JumpCacheState.findStep at ht
  cases hf : s.finders cpu with
  | idle => simp [hf] at ht
  | readCache pc =>
    have hcpu := h.finding cpu (by simp [hf])
    simp only [hf] at ht
    split at ht
    · injection ht with ht
      subst ht
      refine h.setFinder hcpu fun pc' tb' hstore => ?_
      split_ifs at hstore
    · injection ht with ht
      subst ht
      exact h.setFinder hcpu fun pc' tb' hstore => by cases hstore
  | readTable pc =>
    have hcpu := h.finding cpu (by simp [hf])
    simp only [hf] at ht
    split at ht
    · rename_i tb htb
      injection ht with ht
      subst ht
      refine h.setFinder hcpu fun pc' tb' hstore => ?_
      injection hstore with hpc htb'
      rw [← hpc, ← htb']
      exact h.table pc tb htb
    · injection ht with ht
      subst ht
      exact h.setFinder hcpu fun pc' tb' hstore => by cases hstore
  | generate pc =>
    have hcpu := h.finding cpu (by simp [hf])
    simp only [hf] at ht
    split_ifs at ht with hidle
    injection ht with ht
    subst ht
    obtain ⟨hgen, hcpus⟩ := h.genCode hidle pc
    refine hgen.setFinder (hcpus ▸ hcpu) fun pc' tb' hstore => ?_
    injection hstore with hpc htb'
    rw [← hpc, ← htb']
    exact genCode_pc h pc
  | store pc tb =>
    have hcpu := h.finding cpu (by simp [hf])
    have hpc := h.held cpu pc tb hf
    simp only [hf] at ht
    injection ht with ht
    subst ht
    refine (h.setCache fun tb' htb' => ?_).setFinder hcpu fun pc' tb' hstore => by cases hstore
    injection htb' with htb'
    subst htb'
    exact ⟨hcpu, by rw [hpc], hcare pc tb hf⟩

theorem Watched.invalidate (h : s.Watched) (hidle : s.inval = .idle) (tb : CodeBlock) :
    Watched { s with invalid := update s.invalid tb true, inval := .marked tb } := by
  refine ⟨h.table, fun tb' htb' hinv => ?_, h.finding, h.held, fun c i tb' hc => ?_⟩
  · rcases eq_or_ne tb' tb with rfl | hne
    · rfl
    · simp only [update_of_ne hne] at hinv
      have := h.valid tb' htb' hinv
      rw [hidle] at this
      cases this
  · obtain ⟨hcpu, hi, htb' | hp⟩ := h.cached c i tb' hc
    · exact ⟨hcpu, hi, .inl htb'⟩
    · rw [hidle] at hp
      exact hp.elim

/-- Taking the marked block out of the table leaves every cache to be looked at. -/
theorem Watched.remove (h : s.Watched) (hmarked : s.inval = .marked tb)
    (htb : s.htable tb.pc = some tb) :
    Watched { s with htable := update s.htable tb.pc none, inval := .clearing tb s.cpus } := by
  have htable : ∀ pc tb', update s.htable tb.pc none pc = some tb' →
      pc ≠ tb.pc ∧ s.htable pc = some tb' := by
    intro pc tb' htb'
    rcases eq_or_ne pc tb.pc with rfl | hne
    · simp at htb'
    · rw [update_of_ne hne] at htb'
      exact ⟨hne, htb'⟩
  refine ⟨fun pc tb' htb' => h.table pc tb' (htable pc tb' htb').2, fun tb' htb' hinv => ?_, h.finding,
    h.held, fun c i tb' hc => ?_⟩
  · obtain ⟨hne, htb'⟩ := htable _ _ htb'
    have := h.valid tb' htb' hinv
    rw [hmarked] at this
    injection this with this
    exact absurd (this ▸ rfl) hne
  · obtain ⟨hcpu, hi, htb' | hp⟩ := h.cached c i tb' hc
    · refine ⟨hcpu, hi, ?_⟩
      rcases eq_or_ne tb'.pc tb.pc with hpc | hne
      · rw [hpc, htb] at htb'
        injection htb' with htb'
        exact .inr ⟨htb', hcpu⟩
      · exact .inl (by simpa only [update_of_ne hne] using htb')
    · rw [hmarked] at hp
      exact hp.elim

/-- The invalidation moves on to a state in which no cache has to be looked at that need not be. -/
theorem Watched.setInval (h : s.Watched) {f : InvalState}
    (hvalid : ∀ tb, s.htable tb.pc = some tb → s.invalid tb = true → f = .marked tb)
    (hpending : ∀ cpu i tb, s.jmpCache cpu i = some tb → s.inval.Pending cpu tb → f.Pending cpu tb) :
    Watched { s with inval := f } := by
  refine ⟨h.table, hvalid, h.finding, h.held, fun c i tb hc => ?_⟩
  obtain ⟨hcpu, hi, hr⟩ := h.cached c i tb hc
  exact ⟨hcpu, hi, hr.imp_right (hpending c i tb hc)⟩

theorem Watched.invalStep (h : s.Watched) (ht : s.invalStep = some t) : t.Watched := by
  -- an invalid block in the table is the marked one
  have hvalid : ∀ f, (∀ tb, s.inval ≠ .marked tb) → ∀ tb, s.htable tb.pc = some tb →
      s.invalid tb = true → f = InvalState.marked tb :=
    fun f hno tb htb hinv => absurd (h.valid tb htb hinv) (hno tb)
  unfold JumpCacheState.invalStep at ht
  split at ht
  · cases ht
  · rename_i tb hinval
    split_ifs at ht with htb
    · injection ht with ht
      subst ht
      exact h.remove hinval htb
    · injection ht with ht
      subst ht
      refine h.setInval (fun tb' htb' hinv => ?_) (fun c i tb' _ hp => ?_)
      · have := h.valid tb' htb' hinv
        rw [hinval] at this
        injection this with this
        exact absurd htb' (this ▸ htb)
      · rw [hinval] at hp
        exact hp.elim
  · rename_i tb hinval
    injection ht with ht
    subst ht
    refine h.setInval (hvalid _ (by simp [hinval])) fun c i tb' _ hp => ?_
    rw [hinval] at hp
    exact absurd hp.2 List.not_mem_nil
  · rename_i tb cpu cpus hinval
    split_ifs at ht with hmatch
    · injection ht with ht
      subst ht
      refine h.setInval (hvalid _ (by simp [hinval])) fun c i tb' _ hp => ?_
      rw [hinval] at hp
      exact ⟨hp.1, List.mem_cons.mp hp.2⟩
    · injection ht with ht
      subst ht
      refine h.setInval (hvalid _ (by simp [hinval])) fun c i tb' hc hp => ?_
      rw [hinval] at hp
      obtain ⟨rfl, hmem⟩ := hp
      rcases List.mem_cons.mp hmem with rfl | hmem
      · -- the cache that has just been read does not hold the block
        rw [(h.cached _ i tb hc).2.1] at hc
        exact absurd hc hmatch
      · exact ⟨rfl, hmem⟩
  · rename_i tb cpu cpus hinval
    injection ht with ht
    subst ht
    have hclear : (s.setCache cpu (tbJmpCacheHashFunc tb.pc) none).Watched :=
      h.setCache fun tb' htb' => by cases htb'
    refine hclear.setInval (hvalid _ (by simp [hinval])) fun c i tb' hc hp => ?_
    have hp' : s.inval.Pending c tb' := hp
    rw [hinval] at hp'
    obtain ⟨rfl, rfl | hmem⟩ := hp'
    · have hi := (hclear.cached _ i tb hc).2.1
      rw [hi] at hc
      simp [JumpCacheState.setCache] at hc
    · exact ⟨rfl, hmem⟩

theorem Watched.step (h : s.Watched) {e : JumpCacheEvent} (hcare : s.Careful e) (ht : Step s e t) :
    t.Watched := by
  cases e with
  | find cpu pc =>
    simp only [Step, JumpCacheState.step] at ht
    split_ifs at ht with hc
    injection ht with ht
    subst ht
    exact h.setFinder hc.1 fun pc' tb hstore => by cases hstore
  | findStep cpu => exact h.findStep hcare ht
  | invalidate tb =>
    simp only [Step, JumpCacheState.step] at ht
    split_ifs at ht with hidle
    injection ht with ht
    subst ht
    exact h.invalidate hidle tb
  | invalStep => exact h.invalStep ht

/-- A block that is stored after its invalidation stays in the cache. -/
theorem not_clean_of_store {pc : BitVec 64} (hidle : s.inval = .idle)
    (hinv : s.invalid tb = true) (hstore : s.finders cpu = .store pc tb)
    (ht : Step s (.findStep cpu) t) : ¬ t.Clean := by
  simp only [Step, JumpCacheState.step, JumpCacheState.findStep, hstore] at ht
  injection ht with ht
  subst ht
  intro hclean
  refine (hclean hidle tb hinv).1 cpu (tbJmpCacheHashFunc pc) ?_
  simp [JumpCacheState.setFinder, JumpCacheState.setCache]

end JumpCacheState

open JumpCacheState

/-- In every run that is careful about its caches no block stays in one after its invalidation; from
where such a run leads, the store of a block whose invalidation is over leaves it there. -/
theorem clean_of_careful (cpus : List ℕ) (es : List JumpCacheEvent) (s : JumpCacheState)
    (hcare : Runs.Along Step Careful (start cpus) es) (h : Runs.Reaches Step (start cpus) es s) :
    s.Clean ∧ ∀ cpu pc tb t, s.inval = .idle → s.invalid tb = true → s.finders cpu = .store pc tb →
      Step s (.findStep cpu) t → ¬ t.Clean :=
  ⟨(hcare.reaches_invariant (fun _ _ _ hw hc ht => hw.step hc ht) (watched_start cpus) h).clean,
    fun _ _ _ _ hidle hinv hstore ht => not_clean_of_store hidle hinv hstore ht⟩

def cachedBlock : CodeBlock := ⟨0, 0x1000⟩

def cacheRun : List JumpCacheEvent :=
  [.find 0 0x1000, .findStep 0, .findStep 0, .findStep 0, .findStep 0]

/-- The invalidation of the block looks at the caches of two CPUs, the first of which holds it. -/
def invalRun : List JumpCacheEvent :=
  [.invalidate cachedBlock, .invalStep, .invalStep, .invalStep, .invalStep, .invalStep]

/-- The second CPU has found the block in the hash table before it is invalidated, and stores it into
its cache afterwards. -/
theorem not_clean_late_store :
    ∃ s, Runs.Reaches Step (start [0, 1])
      (cacheRun ++ [.find 1 0x1000, .findStep 1, .findStep 1] ++ invalRun ++ [.findStep 1]) s ∧
      s.inval = .idle ∧ s.finders 0 = .idle ∧ s.finders 1 = .idle ∧ s.invalid cachedBlock = true ∧
      s.lookup 1 0x1000 = some cachedBlock := by
  exact ⟨_, .cons rfl (.cons rfl (.cons rfl (.cons rfl (.cons rfl (.cons rfl (.cons rfl (.cons rfl
    (.cons rfl (.cons rfl (.cons rfl (.cons rfl (.cons rfl (.cons rfl (.cons rfl
      (.nil _))))))))))))))), rfl, rfl, rfl, rfl, rfl⟩

theorem along_cons {s t : JumpCacheState} {e : JumpCacheEvent} {es : List JumpCacheEvent}
    (ht : s.step e = some t) (hcare : s.Careful e) (h : Runs.Along Step Careful t es) : Runs.Along Step Careful s (e :: es) :=
  ⟨hcare, fun _ ht' => Option.some.inj (ht.symm.trans ht') ▸ h⟩

theorem along_cacheRun : Runs.Along Step Careful (start [0, 1]) (cacheRun ++ invalRun) := by
  refine along_cons rfl trivial (along_cons rfl ?_ (along_cons rfl ?_ (along_cons rfl ?_
    (along_cons rfl ?_ (along_cons rfl trivial (along_cons rfl trivial (along_cons rfl trivial
      (along_cons rfl trivial (along_cons rfl trivial (along_cons rfl trivial trivial))))))))))
  · rintro pc tb ⟨⟩
  · rintro pc tb ⟨⟩
  · rintro pc tb ⟨⟩
  · rintro pc tb ⟨⟩
    exact .inl rfl

theorem clean_of_careful_translated :
    ∃ s, Runs.Reaches Step (start [0, 1]) (cacheRun ++ invalRun) s ∧ s.inval = .idle ∧
      s.invalid cachedBlock = true ∧ s.Clean := by
  have hrun : ∃ s, Runs.Reaches Step (start [0, 1]) (cacheRun ++ invalRun) s ∧ s.inval = .idle ∧
      s.invalid cachedBlock = true :=
    ⟨_, .cons rfl (.cons rfl (.cons rfl (.cons rfl (.cons rfl (.cons rfl (.cons rfl (.cons rfl
      (.cons rfl (.cons rfl (.cons rfl (.nil _))))))))))), rfl, rfl⟩
  obtain ⟨s, hs, hidle, hinv⟩ := hrun
  exact ⟨s, hs, hidle, hinv, (clean_of_careful _ _ s along_cacheRun hs).1⟩

end Iqemu64
