import Iqemu64.PageFlags

/-!
# The walk over the memory regions

`walk_memory_regions` goes through the table of page descriptors in the order of the pages and reports
each run of pages with the same flags. A table that was not allocated ends the run before it, and the
walk itself ends the last one. The callback returns zero; its calls are recorded.
-/

namespace Iqemu64
open RadixTable

structure MemoryRegion where
  start : ℕ
  stop : ℕ
  prot : BitVec 32

structure WalkData where
  start : ℕ
  prot : BitVec 32
  calls : List MemoryRegion

namespace WalkData

/-- `-1u`, which is not extended to the 64 bits of `start`. -/
def noStart : ℕ := 0xffffffff

def walkMemoryRegionsEnd (d : WalkData) (stop : ℕ) (newProt : BitVec 32) : WalkData where
  start := if newProt ≠ 0 then stop else noStart
  prot := newProt
  calls := if d.start ≠ noStart then d.calls ++ [⟨d.start, stop, d.prot⟩] else d.calls

def visitPage (base : ℕ) (pd : Table PageDesc vL2Bits []) (d : WalkData) (i : Fin (2 ^ vL2Bits)) :
    WalkData :=
  let prot := (pd i).flags.setWidth 32
  let pa := base ||| i.val <<< aarch64Config.pageBits
  if prot ≠ d.prot then d.walkMemoryRegionsEnd pa prot else d

def walkMemoryRegions1 : (base level : ℕ) → Option (Table PageDesc vL2Bits (.replicate level vL2Bits)) →
    WalkData → WalkData
  | base, _, none, d => d.walkMemoryRegionsEnd base 0
  | base, 0, some pd, d => Fin.foldl _ (visitPage base pd) d
  | base, level + 1, some pp, d =>
    Fin.foldl (2 ^ vL2Bits) (fun d i => walkMemoryRegions1
      (base ||| i.val <<< (aarch64Config.pageBits + vL2Bits * (level + 1))) level (pp i) d) d

end WalkData

open WalkData

def walkMemoryRegions (m : PageMap aarch64Config) : List MemoryRegion :=
  let d := Fin.foldl (2 ^ aarch64Config.vL1Bits) (fun d i => walkMemoryRegions1
    (i.val <<< (aarch64Config.vL1Shift + aarch64Config.pageBits)) aarch64Config.vL2Levels (m i) d)
    ⟨noStart, 0, []⟩
  (d.walkMemoryRegionsEnd 0 0).calls

structure IsRun (flags : ℕ → BitVec 32) (pages a b : ℕ) (prot : BitVec 32) : Prop where
  nonzero : prot ≠ 0
  nonempty : a < b
  same : ∀ i, a ≤ i → i < b → flags i = prot
  left : ∀ i, i + 1 = a → flags i ≠ prot
  right : b = pages ∨ flags b ≠ prot

structure RegionsReported (flags : ℕ → BitVec 32) (pages : ℕ) (calls : List MemoryRegion) : Prop where
  ordered : calls.Pairwise fun r r' => r.stop ≤ r'.start
  runs : ∀ r ∈ calls, ∃ a b, r.start = a * 4096 ∧ r.stop = b * 4096 ∧ IsRun flags pages a b r.prot
  covers : ∀ i < pages, flags i ≠ 0 → ∃ r ∈ calls, r.start ≤ i * 4096 ∧ i * 4096 < r.stop

/-! ### The pages below an index have been visited -/

structure Walked (flags : ℕ → BitVec 32) (pages k a : ℕ) (d : WalkData) : Prop where
  nonempty : a < k ∨ a = 0 ∧ k = 0 ∧ d.prot = 0
  start : d.start = if d.prot ≠ 0 then a * 4096 else noStart
  same : ∀ i, a ≤ i → i < k → flags i = d.prot
  left : ∀ i, i + 1 = a → flags i ≠ d.prot
  ordered : d.calls.Pairwise fun r r' => r.stop ≤ r'.start
  runs : ∀ r ∈ d.calls, ∃ a' b, r.start = a' * 4096 ∧ r.stop = b * 4096 ∧ b ≤ a ∧
    IsRun flags pages a' b r.prot
  covers : ∀ i < a, flags i ≠ 0 → ∃ r ∈ d.calls, r.start ≤ i * 4096 ∧ i * 4096 < r.stop

namespace Walked

variable {flags : ℕ → BitVec 32} {pages k a n : ℕ} {d : WalkData}

theorem init : Walked flags pages 0 0 ⟨noStart, 0, []⟩ where
  nonempty := Or.inr ⟨rfl, rfl, rfl⟩
  start := rfl
  same i _ hi := absurd hi (Nat.not_lt_zero i)
  left i hi := absurd hi (Nat.succ_ne_zero i)
  ordered := List.Pairwise.nil
  runs r hr := by cases hr
  covers i hi := absurd hi (Nat.not_lt_zero i)

theorem start_ne (h : Walked flags pages k a d) : d.start ≠ noStart ↔ d.prot ≠ 0 := by
  rw [h.start]
  split_ifs with hprot
  · refine iff_of_true (fun heq => ?_) hprot
    have hodd := congrArg (· % 4096) heq
    simp [noStart] at hodd
  · exact iff_of_false (fun h => h rfl) hprot

/-- Pages with the flags of the open run belong to it. -/
theorem extend (h : Walked flags pages k a d) (hn : 0 < n)
    (hsame : ∀ i, k ≤ i → i < k + n → flags i = d.prot) : Walked flags pages (k + n) a d where
  nonempty := Or.inl (by rcases h.nonempty with h | h <;> omega)
  start := h.start
  same i hi hik := (lt_or_ge i k).elim (h.same i hi) fun hki => hsame i hki hik
  left := h.left
  ordered := h.ordered
  runs := h.runs
  covers := h.covers

/-- Pages with other flags end the open run. -/
theorem close (h : Walked flags pages k a d) (hn : 0 < n) {prot : BitVec 32} (hne : prot ≠ d.prot)
    (hsame : ∀ i, k ≤ i → i < k + n → flags i = prot) :
    Walked flags pages (k + n) k (d.walkMemoryRegionsEnd (k * 4096) prot) := by
  have hak : a ≤ k := by rcases h.nonempty with h | h <;> omega
  have hleft : ∀ i, i + 1 = k → flags i ≠ prot := fun i hi => by
    rw [h.same i (by rcases h.nonempty with h | h <;> omega) (by omega)]
    exact hne.symm
  by_cases hprot : d.prot = 0
  · have hend : d.walkMemoryRegionsEnd (k * 4096) prot =
        ⟨if prot ≠ 0 then k * 4096 else noStart, prot, d.calls⟩ := by
      rw [walkMemoryRegionsEnd, if_neg (fun hs => h.start_ne.mp hs hprot)]
    rw [hend]
    refine ⟨Or.inl (by omega), rfl, hsame, hleft, h.ordered, fun r hr => ?_, fun i hi hflags => ?_⟩
    · obtain ⟨a', b, hstart, hstop, hb, hrun⟩ := h.runs r hr
      exact ⟨a', b, hstart, hstop, hb.trans hak, hrun⟩
    · refine h.covers i (lt_of_not_ge fun hai => hflags ?_) hflags
      rw [h.same i hai hi, hprot]
  · have hend : d.walkMemoryRegionsEnd (k * 4096) prot =
        ⟨if prot ≠ 0 then k * 4096 else noStart, prot,
          d.calls ++ [⟨a * 4096, k * 4096, d.prot⟩]⟩ := by
      rw [walkMemoryRegionsEnd, if_pos (h.start_ne.mpr hprot), h.start, if_pos hprot]
    have hlt : a < k := h.nonempty.resolve_right fun h0 => hprot h0.2.2
    rw [hend]
    refine ⟨Or.inl (by omega), rfl, hsame, hleft, ?_, fun r hr => ?_, fun i hi hflags => ?_⟩
    · refine List.pairwise_append.mpr ⟨h.ordered, List.pairwise_singleton _ _, fun r hr r' hr' => ?_⟩
      obtain ⟨a', b, -, hstop, hb, -⟩ := h.runs r hr
      rw [List.mem_singleton.mp hr', hstop]
      exact Nat.mul_le_mul_right _ hb
    · rcases List.mem_append.mp hr with hr | hr
      · obtain ⟨a', b, hstart, hstop, hb, hrun⟩ := h.runs r hr
        exact ⟨a', b, hstart, hstop, hb.trans hak, hrun⟩
      · obtain rfl := List.mem_singleton.mp hr
        refine ⟨a, k, rfl, rfl, le_rfl, hprot, hlt, h.same, h.left, Or.inr ?_⟩
        rw [hsame k le_rfl (by omega)]
        exact hne
    · rcases lt_or_ge i a with hia | hia
      · obtain ⟨r, hr, hcov⟩ := h.covers i hia hflags
        exact ⟨r, List.mem_append_left _ hr, hcov⟩
      · exact ⟨_, List.mem_append_right _ List.mem_cons_self, by dsimp only; omega, by dsimp only; omega⟩

end Walked

/-! ### The levels of the table -/

section Levels
variable {flags : ℕ → BitVec 32} {pages k : ℕ} {d : WalkData}

def Visited (flags : ℕ → BitVec 32) (pages k : ℕ) (d : WalkData) : Prop := ∃ a, Walked flags pages k a d

theorem foldl_visited {n stop : ℕ} (size : ℕ) {f : WalkData → Fin n → WalkData}
    (hstop : stop = k + n * size) (h : Visited flags pages k d)
    (hf : ∀ (i : Fin n) d, Visited flags pages (k + i * size) d →
      Visited flags pages (k + i * size + size) (f d i)) :
    Visited flags pages stop (Fin.foldl n f d) := by
  induction n generalizing stop with
  | zero =>
    rw [Fin.foldl_zero, hstop, Nat.zero_mul]
    exact h
  | succ n ih =>
    rw [Fin.foldl_succ_last, hstop, Nat.succ_mul, ← Nat.add_assoc]
    exact hf (Fin.last n) _ (ih rfl fun i d hd => hf i.castSucc d hd)

def Holds (flags : ℕ → BitVec 32) (k : ℕ) {w : ℕ} {ws : List ℕ} (t : Table PageDesc w ws) : Prop :=
  ∀ j < 2 ^ bits w ws, flags (k + j) = (lookup noPage t j).flags.setWidth 32

theorem holds_entry {w w' : ℕ} {ws : List ℕ} {t : Table PageDesc w (w' :: ws)} (h : Holds flags k t)
    (i : Fin (2 ^ w)) :
    Holds flags (k + i * 2 ^ bits w' ws) ((t i).getD (empty noPage w' ws)) := by
  intro j hj
  have hlt : i.val * 2 ^ bits w' ws + j < 2 ^ bits w (w' :: ws) := by
    rw [show bits w (w' :: ws) = w + bits w' ws by simp [bits], pow_add]
    calc i.val * 2 ^ bits w' ws + j < (i.val + 1) * 2 ^ bits w' ws := by rw [Nat.succ_mul]; omega
      _ ≤ 2 ^ w * 2 ^ bits w' ws := Nat.mul_le_mul_right _ i.isLt
  rw [Nat.add_assoc, h _ hlt, lookup_entry _ _ _ hj]

theorem or_shiftLeft {s w i : ℕ} (hk : 2 ^ (s + w) ∣ k) (hi : i < 2 ^ w) :
    k * 4096 ||| i <<< (12 + s) = (k + i * 2 ^ s) * 4096 := by
  obtain ⟨q, rfl⟩ := hk
  have hlt : i <<< (12 + s) < 2 ^ (12 + s + w) := by
    rw [Nat.shiftLeft_eq, pow_add _ (12 + s), Nat.mul_comm]
    exact Nat.mul_lt_mul_of_pos_left hi (Nat.two_pow_pos _)
  have hbase : 2 ^ (s + w) * q * 4096 = q <<< (12 + s + w) := by
    rw [Nat.shiftLeft_eq]
    ring
  rw [hbase, ← Nat.shiftLeft_add_eq_or_of_lt hlt, Nat.shiftLeft_eq, Nat.shiftLeft_eq]
  ring

theorem visitPage_visited {pd : Table PageDesc vL2Bits []} {i : Fin (2 ^ vL2Bits)} (hk : 2 ^ vL2Bits ∣ k)
    (ht : Holds flags k pd) (h : Visited flags pages (k + i * 1) d) :
    Visited flags pages (k + i * 1 + 1) (visitPage (k * 4096) pd d i) := by
  obtain ⟨a, h⟩ := h
  have hflags : flags (k + i) = (pd i).flags.setWidth 32 := by
    have hentry : entry vL2Bits 0 i = i := Fin.ext (Nat.mod_eq_of_lt i.isLt)
    rw [ht i i.isLt, lookup, find, hentry]
    rfl
  have hpage : ∀ j, k + i * 1 ≤ j → j < k + i * 1 + 1 → flags j = (pd i).flags.setWidth 32 := by
    intro j hj hj'
    rw [← hflags, show j = k + i by omega]
  have hpa : k * 4096 ||| i.val <<< aarch64Config.pageBits = (k + i * 1) * 4096 :=
    or_shiftLeft (s := 0) (by rwa [Nat.zero_add]) i.isLt
  rw [visitPage, hpa]
  split_ifs with hprot
  · exact ⟨_, h.close Nat.one_pos hprot hpage⟩
  · rw [not_not] at hprot
    exact ⟨_, h.extend Nat.one_pos (hprot ▸ hpage)⟩

theorem bits_replicate (level : ℕ) :
    bits vL2Bits (.replicate level vL2Bits) = vL2Bits * (level + 1) := by
  rw [bits, List.sum_replicate_nat]
  ring

/-- A missing table stands for pages without flags. -/
theorem walkMemoryRegions1_none {level : ℕ} (h : Visited flags pages k d)
    (ht : Holds flags k (empty noPage vL2Bits (.replicate level vL2Bits))) :
    Visited flags pages (k + 2 ^ (vL2Bits * (level + 1)))
      (walkMemoryRegions1 (k * 4096) level none d) := by
  obtain ⟨a, h⟩ := h
  have hzero : ∀ i, k ≤ i → i < k + 2 ^ (vL2Bits * (level + 1)) → flags i = 0 := fun i hki hi => by
    have hflags := ht (i - k) (by rw [bits_replicate]; omega)
    rw [lookup_empty, Nat.add_sub_cancel' hki] at hflags
    exact hflags
  have hend : walkMemoryRegions1 (k * 4096) level none d = d.walkMemoryRegionsEnd (k * 4096) 0 := by
    cases level <;> rfl
  rw [hend]
  by_cases hprot : d.prot = 0
  · have hsame : d.walkMemoryRegionsEnd (k * 4096) 0 = d := by
      rw [walkMemoryRegionsEnd, if_neg (fun hs => h.start_ne.mp hs hprot)]
      have hstart := h.start
      rw [hprot] at hstart
      cases d
      cases hprot
      cases hstart
      rfl
    rw [hsame]
    exact ⟨a, h.extend (Nat.two_pow_pos _) (hprot ▸ hzero)⟩
  · exact ⟨k, h.close (Nat.two_pow_pos _) (Ne.symm hprot) hzero⟩

/-- A table of a level is walked, by induction on the level. -/
theorem walkMemoryRegions1_visited (level : ℕ)
    (lp : Option (Table PageDesc vL2Bits (.replicate level vL2Bits)))
    (hk : 2 ^ (vL2Bits * (level + 1)) ∣ k) (ht : Holds flags k (lp.getD (empty noPage _ _)))
    (h : Visited flags pages k d) :
    Visited flags pages (k + 2 ^ (vL2Bits * (level + 1)))
      (walkMemoryRegions1 (k * 4096) level lp d) := by
  induction level generalizing k d with
  | zero =>
    cases lp with
    | none => exact walkMemoryRegions1_none h ht
    | some pd => exact foldl_visited 1 rfl h fun i d hd => visitPage_visited hk ht hd
  | succ level ih =>
    cases lp with
    | none => exact walkMemoryRegions1_none h ht
    | some pp =>
      have hsize : 2 ^ (vL2Bits * (level + 1 + 1)) = 2 ^ vL2Bits * 2 ^ (vL2Bits * (level + 1)) := by
        rw [← pow_add]
        ring
      rw [walkMemoryRegions1]
      refine foldl_visited _ (congrArg (k + ·) hsize) h fun i d hd => ?_
      have hpa : k * 4096 ||| i.val <<< (12 + vL2Bits * (level + 1)) = _ := or_shiftLeft hk i.isLt
      have hpp := holds_entry ht i
      rw [bits_replicate] at hpp
      rw [show aarch64Config.pageBits = 12 from rfl, hpa]
      refine ih (pp i) (Nat.dvd_add ?_ (Nat.dvd_mul_left _ _)) hpp hd
      rw [hsize] at hk
      exact (Nat.dvd_mul_left _ _).trans hk

end Levels

section Whole
variable (m : PageMap aarch64Config)

def tablePages : ℕ := 2 ^ 36

def PageMap.protOf (i : ℕ) : BitVec 32 := m.pageGetFlags (i * 4096)

theorem protOf_eq (i : ℕ) : m.protOf i = (lookup noPage m i).flags.setWidth 32 := by
  rw [PageMap.protOf, PageMap.pageGetFlags_eq, Nat.shiftRight_eq_div_pow]
  exact congrArg (fun i => (m.desc i).flags.setWidth 32) (Nat.mul_div_cancel i (by decide))

theorem walkLoop_visited : Visited m.protOf tablePages tablePages
    (Fin.foldl (2 ^ aarch64Config.vL1Bits) (fun d i => walkMemoryRegions1
      (i.val <<< (aarch64Config.vL1Shift + aarch64Config.pageBits)) aarch64Config.vL2Levels (m i) d)
      ⟨noStart, 0, []⟩) := by
  have hall : Holds m.protOf 0 m := fun j _ => by rw [Nat.zero_add, protOf_eq]
  refine foldl_visited (2 ^ 30) (by decide) ⟨0, Walked.init⟩ fun i d hd => ?_
  have hbase : i.val <<< (aarch64Config.vL1Shift + aarch64Config.pageBits) = (0 + i * 2 ^ 30) * 4096 := by
    rw [Nat.shiftLeft_eq, Nat.zero_add]
    exact (Nat.mul_assoc i.val (2 ^ 30) 4096).symm
  rw [hbase]
  refine walkMemoryRegions1_visited 2 (m i) ?_ (holds_entry hall i) hd
  rw [Nat.zero_add]
  exact Nat.dvd_mul_left _ _

theorem regionsReported_iff {flags : ℕ → BitVec 32} {pages : ℕ} {d : WalkData} (hpos : 0 < pages)
    (h : Visited flags pages pages d) :
    RegionsReported flags pages (d.walkMemoryRegionsEnd 0 0).calls ↔ flags (pages - 1) = 0 := by
  obtain ⟨a, h⟩ := h
  have hlast : flags (pages - 1) = d.prot :=
    h.same _ (by rcases h.nonempty with h | h <;> omega) (by omega)
  rw [hlast, walkMemoryRegionsEnd]
  constructor
  · intro hrep
    by_contra hprot
    rw [if_pos (h.start_ne.mpr hprot)] at hrep
    obtain ⟨a', b, -, hstop, hrun⟩ := hrep.runs _ (List.mem_append_right _ List.mem_cons_self)
    have hlt := hrun.nonempty
    dsimp only at hstop
    omega
  · intro hprot
    rw [if_neg fun hs => h.start_ne.mp hs hprot]
    refine ⟨h.ordered, fun r hr => ?_, fun i hi hflags => ?_⟩
    · obtain ⟨a', b, hstart, hstop, -, hrun⟩ := h.runs r hr
      exact ⟨a', b, hstart, hstop, hrun⟩
    · refine h.covers i (lt_of_not_ge fun hai => hflags ?_) hflags
      rw [h.same i hai hi, hprot]

/-- The walk reports exactly the runs of pages with flags if and only if the last page of the table has
none. -/
theorem walkMemoryRegions_exact_iff :
    RegionsReported m.protOf tablePages (walkMemoryRegions m) ↔ m.protOf (tablePages - 1) = 0 :=
  regionsReported_iff (by decide) (walkLoop_visited m)

end Whole

/-- The run up to the end of the table is reported as ending at zero. -/
theorem walkMemoryRegions_lastPage :
    ∃ m, PageMap.pageSetFlags (fun _ _ => [])
        (empty noPage aarch64Config.vL1Bits aarch64Config.lowerWidths) (2 ^ 48 - 4096) (2 ^ 48) 0x1 =
        some m ∧ ¬ RegionsReported m.protOf tablePages (walkMemoryRegions m) := by
  obtain ⟨m, hm, hflags⟩ := pageGetFlags_pageSetFlags (fun _ _ => []) aarch64Config_valid
    (empty noPage aarch64Config.vL1Bits aarch64Config.lowerWidths)
    (show FlagsCall.ValidRange aarch64Config ⟨2 ^ 48 - 4096, 2 ^ 48, 0x1⟩ from ⟨by decide, by decide⟩)
  refine ⟨m, hm, fun hrep => ?_⟩
  have hzero := (regionsReported_iff (by decide) (walkLoop_visited m)).mp hrep
  have hset := hflags (2 ^ 48 - 4096) (by decide)
  rw [if_pos (by decide)] at hset
  exact absurd (hset.symm.trans hzero) (by decide)

end Iqemu64
