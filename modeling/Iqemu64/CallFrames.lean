import Iqemu64.TailQueue
import Iqemu64.Runs
import Mathlib.Tactic

/-!
# The list of call frames

Every activation of `cpu_xloop` has an entry in the CPU's list of call frames, with pointers to the
guest's return address, frame pointer and stack pointer at that level: those of the newest one are in
the CPU state, those of any other were saved by the activation in front of it. The C locals of an
activation are named by its frame. A list is unwound by the end of the newest activation, by a jump
back to an older one, and by a number of frames on behalf of the host's unwinder.
-/

namespace Iqemu64
open TailQueue List Option Function Prod

/-- What the pointers of an entry are for: `p_arm64_pc`, `p_arm64_fp`, `p_arm64_sp`. -/
inductive FrameField where
  | pc | fp | sp
  deriving DecidableEq, Repr

def FrameField.xreg : FrameField → ℕ
  | pc => 30
  | fp => 29
  | sp => 31

/-- Where such a pointer can point to: into the CPU state, or to one of the locals `saved_lr`,
`saved_fp` and `saved_sp` of an activation. -/
inductive FramePtr where
  | xreg (n : ℕ)
  | saved (frame : ℕ) (f : FrameField)
  deriving DecidableEq, Repr

abbrev XRegs : Type := ℕ → BitVec 64

structure CfiEnv where
  xregs : XRegs
  CFIhead : Queue
  saved : ℕ → FrameField → BitVec 64
  ptr : ℕ → FrameField → FramePtr

def livePtr (f : FrameField) : FramePtr := .xreg f.xreg

namespace CfiEnv

variable (s : CfiEnv)

def load : FramePtr → BitVec 64
  | .xreg n => s.xregs n
  | .saved frame f => s.saved frame f

def live (f : FrameField) : BitVec 64 := s.xregs f.xreg

def setXreg (n : ℕ) (v : BitVec 64) : CfiEnv := { s with xregs := update s.xregs n v }

def setPtr (frame : ℕ) (p : FrameField → FramePtr) : CfiEnv :=
  { s with ptr := update s.ptr frame p }

def setFirst (p : FrameField → FramePtr) : CfiEnv :=
  match s.CFIhead.first with
  | some pcfi => s.setPtr pcfi p
  | none => s

def remove (pcfi : ℕ) : Option CfiEnv :=
  (s.CFIhead.remove pcfi).map fun q => { s with CFIhead := q }

def removeCount : ℕ → CfiEnv → Option CfiEnv
  | 0, s => some s
  | count + 1, s => s.CFIhead.first.bind fun pcfi => (s.remove pcfi).bind (removeCount count)

def loadRegs (pcfi : ℕ) : CfiEnv :=
  let s := s.setXreg 30 (s.load (s.ptr pcfi .pc))
  let s := s.setXreg 29 (s.load (s.ptr pcfi .fp))
  s.setXreg 31 (s.load (s.ptr pcfi .sp))

/-- `CFIList_Truncate_To_By_Count`. -/
def cfiListTruncateToByCount (count : ℤ) : Option CfiEnv :=
  if 0 < count then
    (s.removeCount count.toNat).map fun s =>
      match s.CFIhead.first with
      | some pcfi => (s.loadRegs pcfi).setPtr pcfi livePtr
      | none => s
  else some s

def removeUntil (entry : ℕ) : ℕ → CfiEnv → Option CfiEnv
  | 0, _ => none
  | fuel + 1, s => s.CFIhead.first.bind fun pcfi =>
      if pcfi = entry then some s else (s.remove pcfi).bind (removeUntil entry fuel)

def cfiListTruncateTo (fuel entry : ℕ) : Option CfiEnv :=
  (s.removeUntil entry fuel).map fun s => s.setPtr entry livePtr

def cfiListInsertHead (entry : ℕ) (last : FrameField → FramePtr) : CfiEnv :=
  let s := (s.setFirst last).setPtr entry livePtr
  { s with CFIhead := s.CFIhead.insertHead entry }

def prepareEnv (ret stackBottom : BitVec 64) : CfiEnv :=
  let s := s.setXreg 30 ret
  if s.xregs 31 = 0 then s.setXreg 31 stackBottom else s

def xloopEnter (frame : ℕ) (ret stackBottom : BitVec 64) (entryTranslation : XRegs → XRegs) : CfiEnv :=
  let s := { s with saved := update s.saved frame s.live }
  let s := s.prepareEnv ret stackBottom
  let s := { s with xregs := entryTranslation s.xregs }
  s.cfiListInsertHead frame (.saved frame)

def xloopFinish (frame : ℕ) (exitTranslation : XRegs → XRegs) : Option CfiEnv :=
  (s.remove frame).map fun s =>
    let s := s.setFirst livePtr
    let s := { s with xregs := exitTranslation s.xregs }
    s.setXreg 30 (s.saved frame .pc)

end CfiEnv

abbrev FrameHistory : Type := List (ℕ × (FrameField → BitVec 64))

inductive CfiEvent where
  | run (xregs : XRegs)
  | enter (frame : ℕ) (ret stackBottom : BitVec 64) (entryTranslation : XRegs → XRegs)
  | finish (exitTranslation : XRegs → XRegs)
  | truncateTo (entry : ℕ)
  | truncateToByCount (count : ℤ)

/-- One event, and what becomes of the activations. A new activation is not where an older one is, the
newest one is the one to finish, and a list is truncated to one of its entries. -/
inductive CfiStep : CfiEnv × FrameHistory → CfiEvent → CfiEnv × FrameHistory → Prop
  | run (s : CfiEnv) (g : FrameHistory) (xregs : XRegs) : CfiStep (s, g) (.run xregs) ({ s with xregs }, g)
  | enter (s : CfiEnv) {g : FrameHistory} {frame : ℕ} (ret stackBottom : BitVec 64)
      (entryTranslation : XRegs → XRegs) (hnew : frame ∉ g.map fst) :
      CfiStep (s, g) (.enter frame ret stackBottom entryTranslation)
        (s.xloopEnter frame ret stackBottom entryTranslation, (frame, s.live) :: g)
  | finish {s t : CfiEnv} {g : FrameHistory} {frame : ℕ} {r : FrameField → BitVec 64}
      {exitTranslation : XRegs → XRegs} (h : s.xloopFinish frame exitTranslation = some t) :
      CfiStep (s, (frame, r) :: g) (.finish exitTranslation) (t, g)
  | truncateTo {s t : CfiEnv} {g : FrameHistory} {entry fuel : ℕ} (hmem : entry ∈ g.map fst)
      (h : s.cfiListTruncateTo fuel entry = some t) :
      CfiStep (s, g) (.truncateTo entry) (t, g.dropWhile fun p => p.1 ≠ entry)
  | truncateToByCount {s t : CfiEnv} {g : FrameHistory} {count : ℤ} (hlt : count < g.length)
      (h : s.cfiListTruncateToByCount count = some t) :
      CfiStep (s, g) (.truncateToByCount count) (t, g.drop count.toNat)

def Pointing (s : CfiEnv) : (FrameField → FramePtr) → FrameHistory → Prop
  | _, [] => True
  | p, (frame, r) :: g => s.ptr frame = p ∧ s.saved frame = r ∧ Pointing s (.saved frame) g

structure FramesLinked (s : CfiEnv) (g : FrameHistory) : Prop where
  queue : IsQueue s.CFIhead (g.map fst)
  pointing : Pointing s livePtr g

section Steps
variable {s t : CfiEnv} {g : FrameHistory} {frame : ℕ} {r : FrameField → BitVec 64}
  {p : FrameField → FramePtr}

theorem Pointing.congr (h : Pointing s p g)
    (heq : ∀ a ∈ g.map fst, t.ptr a = s.ptr a ∧ t.saved a = s.saved a) : Pointing t p g := by
  induction g generalizing p with
  | nil => trivial
  | cons q g ih =>
    obtain ⟨hq, hrest⟩ := forall_mem_cons.mp heq
    exact ⟨hq.1.trans h.1, hq.2.trans h.2.1, ih h.2.2 hrest⟩

theorem Pointing.setPtr (p' : FrameField → FramePtr) (h : Pointing s p ((frame, r) :: g))
    (hframe : frame ∉ g.map fst) : Pointing (s.setPtr frame p') p' ((frame, r) :: g) := by
  refine ⟨update_self _ _ _, h.2.1, h.2.2.congr fun a ha => ⟨?_, rfl⟩⟩
  exact update_of_ne (ne_of_mem_of_not_mem ha hframe) _ _

/-- The newest entry of a list, whatever it points to, is made to point to the live registers. -/
theorem FramesLinked.of_setFirst (hqueue : IsQueue s.CFIhead (g.map fst)) (h : Pointing s p g) :
    FramesLinked (s.setFirst livePtr) g := by
  unfold CfiEnv.setFirst
  rw [hqueue.first_eq]
  cases g with
  | nil => exact ⟨hqueue, trivial⟩
  | cons q g => exact ⟨hqueue, h.setPtr _ (nodup_cons.mp hqueue.nodup).1⟩

theorem FramesLinked.setXregs (h : FramesLinked s g) (xregs : XRegs) :
    FramesLinked { s with xregs } g :=
  ⟨h.queue, h.pointing.congr fun _ _ => ⟨rfl, rfl⟩⟩

theorem FramesLinked.remove (hqueue : IsQueue s.CFIhead (((frame, r) :: g).map fst))
    (h : Pointing s p ((frame, r) :: g)) :
    ∃ t, s.remove frame = some t ∧ IsQueue t.CFIhead (g.map fst) ∧
      Pointing t (.saved frame) g ∧ t.xregs = s.xregs ∧ t.saved = s.saved ∧ t.ptr = s.ptr := by
  obtain ⟨q, hq, hqueue'⟩ := hqueue.remove
  refine ⟨{ s with CFIhead := q }, by rw [CfiEnv.remove, hq]; rfl, hqueue', ?_, rfl, rfl, rfl⟩
  exact h.2.2.congr fun _ _ => ⟨rfl, rfl⟩

theorem CfiEnv.prepareEnv_eq (s : CfiEnv) (ret stackBottom : BitVec 64) :
    ∃ xregs, s.prepareEnv ret stackBottom = { s with xregs } := by
  simp only [CfiEnv.prepareEnv]
  split
  · exact ⟨_, rfl⟩
  · exact ⟨_, rfl⟩

theorem FramesLinked.insertHead (h : FramesLinked s g) (hnew : frame ∉ g.map fst) :
    FramesLinked (s.cfiListInsertHead frame (.saved frame)) ((frame, s.saved frame) :: g) := by
  unfold CfiEnv.cfiListInsertHead CfiEnv.setFirst
  rw [h.queue.first_eq]
  cases g with
  | nil => exact ⟨h.queue.insertHead hnew, update_self _ _ _, rfl, trivial⟩
  | cons q g =>
    have hq := h.pointing.setPtr (.saved frame) (nodup_cons.mp h.queue.nodup).1
    refine ⟨h.queue.insertHead hnew, update_self _ _ _, rfl, hq.congr fun a ha => ⟨?_, rfl⟩⟩
    exact update_of_ne (ne_of_mem_of_not_mem ha hnew) _ _

theorem FramesLinked.enter (h : FramesLinked s g) (hnew : frame ∉ g.map fst)
    (ret stackBottom : BitVec 64) (entryTranslation : XRegs → XRegs) :
    FramesLinked (s.xloopEnter frame ret stackBottom entryTranslation) ((frame, s.live) :: g) := by
  obtain ⟨xregs, hxregs⟩ := CfiEnv.prepareEnv_eq
    { s with saved := update s.saved frame s.live } ret stackBottom
  simp only [CfiEnv.xloopEnter, hxregs]
  have hsaved : FramesLinked { s with
      xregs := entryTranslation xregs
      saved := update s.saved frame s.live } g := by
    refine ⟨h.queue, h.pointing.congr fun a ha => ⟨rfl, ?_⟩⟩
    exact update_of_ne (ne_of_mem_of_not_mem ha hnew) _ _
  have hframe := hsaved.insertHead hnew
  simp only [update_self] at hframe
  exact hframe

theorem FramesLinked.finish (h : FramesLinked s ((frame, r) :: g))
    (exitTranslation : XRegs → XRegs) :
    ∃ t, s.xloopFinish frame exitTranslation = some t ∧ FramesLinked t g := by
  obtain ⟨u, hu, hqueue, hpointing, -⟩ := FramesLinked.remove h.queue h.pointing
  refine ⟨_, by rw [CfiEnv.xloopFinish, hu, map_some], ?_⟩
  exact (FramesLinked.of_setFirst hqueue hpointing).setXregs _

/-- The loop of `CFIList_Truncate_To_By_Count` takes out the newest entries. The pointers of the entry
that is then the newest are those to the locals of the last one taken out. -/
theorem FramesLinked.removeCount {n : ℕ} (hn : n < g.length)
    (hqueue : IsQueue s.CFIhead (g.map fst)) (h : Pointing s p g) :
    ∃ t p', s.removeCount n = some t ∧ IsQueue t.CFIhead ((g.drop n).map fst) ∧
      Pointing t p' (g.drop n) ∧ t.saved = s.saved ∧ (n = 0 → p' = p) ∧
        ∀ m q, n = m + 1 → g[m]? = some q → p' = .saved q.1 ∧ s.saved q.1 = q.2 := by
  induction n generalizing s g p with
  | zero => exact ⟨s, p, rfl, hqueue, h, rfl, fun _ => rfl, fun m q hm => by omega⟩
  | succ n ih =>
    cases g with
    | nil => simp at hn
    | cons q g =>
      obtain ⟨u, hu, hqueue', hpointing, -, hsaved, -⟩ := FramesLinked.remove hqueue h
      obtain ⟨t, p', ht, hqueue'', hpointing', hsaved', hzero, hlast⟩ :=
        ih (by simpa using hn) hqueue' hpointing
      refine ⟨t, p', ?_, hqueue'', hpointing', hsaved'.trans hsaved, by simp, fun m q' hm hq' => ?_⟩
      · rw [CfiEnv.removeCount, hqueue.first_eq]
        change (s.remove q.1).bind _ = _
        rw [hu, bind_some, ht]
      · obtain rfl : m = n := by omega
        cases m with
        | zero =>
          cases hq'
          exact ⟨hzero rfl, h.2.1⟩
        | succ m =>
          rw [← hsaved]
          exact hlast m q' rfl hq'

theorem CfiEnv.live_loadRegs {pcfi : ℕ} (hptr : s.ptr pcfi = .saved frame) :
    (s.loadRegs pcfi).live = s.saved frame := by
  funext f
  cases f
  all_goals simp [CfiEnv.loadRegs, CfiEnv.live, CfiEnv.setXreg, CfiEnv.load, FrameField.xreg, hptr]

/-- After `CFIList_Truncate_To_By_Count` the live registers are those of when the last activation that
was taken out began. -/
theorem FramesLinked.truncateToByCount (h : FramesLinked s g) {count : ℤ} (hlt : count < g.length) :
    ∃ t, s.cfiListTruncateToByCount count = some t ∧ FramesLinked t (g.drop count.toNat) ∧
      ∀ (k : ℕ) q, count = k + 1 → g[k]? = some q → t.live = q.2 := by
  unfold CfiEnv.cfiListTruncateToByCount
  split_ifs with hpos
  swap
  · refine ⟨s, rfl, ?_, fun k q hk => by omega⟩
    rw [Int.toNat_of_nonpos (by omega)]
    exact h
  obtain ⟨u, p', hu, hqueue, hpointing, hsaved, -, hlast⟩ :=
    FramesLinked.removeCount (n := count.toNat) (by omega) h.queue h.pointing
  obtain ⟨q, rest, hdrop⟩ : ∃ q rest, g.drop count.toNat = q :: rest := by
    refine exists_cons_of_ne_nil fun hnil => ?_
    have := drop_eq_nil_iff.mp hnil
    omega
  rw [hu, map_some]
  rw [hdrop] at hqueue hpointing ⊢
  have hfirst : u.CFIhead.first = some q.1 := hqueue.first_eq
  simp only [hfirst]
  have hloaded : Pointing (u.loadRegs q.1) p' (q :: rest) := hpointing.congr fun _ _ => ⟨rfl, rfl⟩
  refine ⟨_, rfl, ⟨hqueue, hloaded.setPtr _ (nodup_cons.mp hqueue.nodup).1⟩, fun k q' hk hq' => ?_⟩
  obtain ⟨hp', hsaved'⟩ := hlast k q' (by omega) hq'
  have hptr : u.ptr q.1 = .saved q'.1 := hpointing.1.trans hp'
  change (u.loadRegs q.1).live = q'.2
  rw [CfiEnv.live_loadRegs hptr, hsaved, hsaved']

/-- `CFIList_Truncate_To` ends, and the entry is then the newest. -/
theorem FramesLinked.removeUntil {entry fuel : ℕ} (hmem : entry ∈ g.map fst)
    (hfuel : g.length ≤ fuel) (hqueue : IsQueue s.CFIhead (g.map fst)) (h : Pointing s p g) :
    ∃ t p', s.removeUntil entry fuel = some t ∧
      IsQueue t.CFIhead ((g.dropWhile fun q => q.1 ≠ entry).map fst) ∧
      Pointing t p' (g.dropWhile fun q => q.1 ≠ entry) := by
  induction fuel generalizing s g p with
  | zero => simp_all
  | succ fuel ih =>
    cases g with
    | nil => cases hmem
    | cons q g =>
      have hfirst : s.CFIhead.first = some q.1 := hqueue.first_eq
      rw [CfiEnv.removeUntil, hfirst, bind_some]
      by_cases hq : q.1 = entry
      · rw [if_pos hq, dropWhile_cons_of_neg (by simpa using hq)]
        exact ⟨s, p, rfl, hqueue, h⟩
      · obtain ⟨u, hu, hqueue', hpointing, -⟩ := FramesLinked.remove hqueue h
        rw [if_neg hq, hu, bind_some, dropWhile_cons_of_pos (by simpa using hq)]
        refine ih ?_ (by simpa using hfuel) hqueue' hpointing
        rcases mem_cons.mp hmem with rfl | hmem
        · exact absurd rfl hq
        · exact hmem

theorem dropWhile_of_mem {entry : ℕ} (hmem : entry ∈ g.map fst) :
    ∃ q rest, g.dropWhile (fun q => q.1 ≠ entry) = q :: rest ∧ q.1 = entry := by
  induction g with
  | nil => cases hmem
  | cons q g ih =>
    by_cases hq : q.1 = entry
    · exact ⟨q, g, dropWhile_cons_of_neg (by simpa using hq), hq⟩
    · rw [dropWhile_cons_of_pos (by simpa using hq)]
      rcases mem_cons.mp hmem with rfl | hmem
      · exact absurd rfl hq
      · exact ih hmem

theorem FramesLinked.truncateTo {entry fuel : ℕ} (h : FramesLinked s g) (hmem : entry ∈ g.map fst)
    (hfuel : g.length ≤ fuel) :
    ∃ t, s.cfiListTruncateTo fuel entry = some t ∧
      FramesLinked t (g.dropWhile fun q => q.1 ≠ entry) := by
  obtain ⟨u, p', hu, hqueue, hpointing⟩ := FramesLinked.removeUntil hmem hfuel h.queue h.pointing
  refine ⟨_, by rw [CfiEnv.cfiListTruncateTo, hu, map_some], ?_⟩
  obtain ⟨q, rest, hdrop, rfl⟩ := dropWhile_of_mem hmem
  rw [hdrop] at hqueue hpointing ⊢
  exact ⟨hqueue, hpointing.setPtr _ (nodup_cons.mp hqueue.nodup).1⟩

theorem CfiEnv.removeUntil_mono {entry fuel fuel' : ℕ} (hle : fuel ≤ fuel')
    (h : s.removeUntil entry fuel = some t) : s.removeUntil entry fuel' = some t := by
  induction fuel generalizing s fuel' with
  | zero => cases h
  | succ fuel ih =>
    obtain ⟨fuel', rfl⟩ : ∃ k, fuel' = k + 1 := ⟨fuel' - 1, by omega⟩
    rw [CfiEnv.removeUntil] at h ⊢
    cases hfirst : s.CFIhead.first with
    | none => rw [hfirst] at h; cases h
    | some pcfi =>
      rw [hfirst, bind_some] at h
      rw [bind_some]
      split_ifs at h ⊢ with hq
      · exact h
      · obtain ⟨u, hu, hrest⟩ := bind_eq_some_iff.mp h
        rw [hu, bind_some]
        exact ih (by omega) hrest

/-- Every event keeps the entries and their pointers in order. -/
theorem FramesLinked.step {e : CfiEvent} {g' : FrameHistory} (h : FramesLinked s g)
    (hstep : CfiStep (s, g) e (t, g')) : FramesLinked t g' := by
  cases hstep with
  | run s g xregs => exact h.setXregs xregs
  | enter s ret stackBottom entryTranslation hnew => exact h.enter hnew ret stackBottom entryTranslation
  | finish ht =>
    obtain ⟨u, hu, hlinked⟩ := h.finish _
    obtain rfl := Option.some.inj (hu.symm.trans ht)
    exact hlinked
  | truncateTo hmem ht =>
    rename_i entry fuel
    obtain ⟨u, hu, hlinked⟩ := h.truncateTo hmem (le_max_right fuel g.length)
    obtain ⟨v, hv, rfl⟩ := map_eq_some_iff.mp ht
    rw [CfiEnv.cfiListTruncateTo, CfiEnv.removeUntil_mono (le_max_left _ _) hv] at hu
    cases hu
    exact hlinked
  | truncateToByCount hlt ht =>
    obtain ⟨u, hu, hlinked, -⟩ := h.truncateToByCount hlt
    obtain rfl := Option.some.inj (hu.symm.trans ht)
    exact hlinked

/-- The pointers of the entry at each place of the list. -/
theorem Pointing.getElem? (h : Pointing s p g) {i : ℕ} {q : ℕ × (FrameField → BitVec 64)}
    (hq : g[i]? = some q) :
    s.saved q.1 = q.2 ∧ (i = 0 → s.ptr q.1 = p) ∧
      ∀ j q', i = j + 1 → g[j]? = some q' → s.ptr q.1 = .saved q'.1 := by
  induction g generalizing p i with
  | nil => simp at hq
  | cons q₀ g ih =>
    cases i with
    | zero =>
      cases hq
      exact ⟨h.2.1, fun _ => h.1, fun j _ hj => by omega⟩
    | succ i =>
      obtain ⟨hsaved, hfirst, hrest⟩ := ih h.2.2 hq
      refine ⟨hsaved, by simp, fun j q' hj hq' => ?_⟩
      obtain rfl : j = i := by omega
      cases j with
      | zero =>
        cases hq'
        exact hfirst rfl
      | succ j => exact hrest j q' rfl hq'

end Steps

def CfiEnv.Idle (s : CfiEnv) : Prop := s.CFIhead.first = none ∧ s.CFIhead.last = .head

/-- No call frame, and register `n` holds `n`. -/
def framelessCpu : CfiEnv where
  xregs n := BitVec.ofNat 64 n
  CFIhead := {}
  saved _ _ := 0
  ptr _ := livePtr

end Iqemu64
