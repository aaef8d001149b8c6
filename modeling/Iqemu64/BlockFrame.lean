import Iqemu64.CodeGenFrame

/-!
# Where a block and a unit are written

A block is generated behind a check of the high-water mark, its operations and search data are
checked one by one, and its pool list starts empty. A trampoline or translation function makes no
such check, so the bound on its place and its size is a hypothesis.
-/

namespace Iqemu64
open Option TcgContext

namespace TcgContext

variable {s t : TcgContext} {A : Set ℕ} {lo hi : ℕ}

/-- The end of the region, as `tcg_region_assign` sets the high-water mark. -/
def regionEnd (s : TcgContext) : ℕ := s.codeGenHighwater + tcgHighwater

structure WritesIn (lo hi : ℕ) (s t : TcgContext) : Prop where
  mem : ∀ x < lo, t.mem x = s.mem x
  emitted : t.emitted ≤ max s.emitted hi
  codeGenPtr : t.codeGenPtr = s.codeGenPtr
  highwater : t.codeGenHighwater = s.codeGenHighwater

variable {u : TcgContext}

theorem WritesIn.trans (h : WritesIn lo hi s t) (h' : WritesIn lo hi t u) :
    WritesIn lo hi s u := by
  refine ⟨fun x hx => (h'.mem x hx).trans (h.mem x hx), ?_,
    h'.codeGenPtr.trans h.codeGenPtr, h'.highwater.trans h.highwater⟩
  have he := h.emitted
  have he' := h'.emitted
  omega

theorem Emitted.writesIn {n : ℕ} (h : Emitted lo hi n s t) (hlo : lo ≤ s.codePtr)
    (hhi : t.codePtr ≤ hi) : WritesIn lo hi s t := by
  refine ⟨fun x hx => h.grown.mem x (by omega), ?_, h.grown.codeGenPtr, h.grown.highwater⟩
  have he := h.grown.emitted
  omega

theorem Finished.writesIn {a c b : ℕ} (h : Finished lo hi a c b s t) (hlo : lo ≤ a) (hhi : b ≤ hi) :
    WritesIn lo hi s t := by
  refine ⟨fun x hx => h.mem x (by omega) (by omega), ?_, h.codeGenPtr, h.highwater⟩
  have he := h.emitted
  omega

variable {fuel : ℕ} {r : GenResult}

theorem genOps_spec {buf : ℕ} {ops : List (List EmitOp)}
    (h : PoolIn A lo s.regionEnd s) (hlo : lo ≤ s.codePtr) (hptr : s.codePtr ≤ s.codeGenHighwater)
    (hops : ∀ op ∈ ops, EmitOp.total op ≤ tcgHighwater)
    (ht : s.genOps fuel buf ops = some (r, t)) :
    WritesIn lo s.regionEnd s t ∧ (∃ B, PoolIn B lo s.regionEnd t) ∧
      (r = .ok → lo ≤ t.codePtr ∧ t.codePtr ≤ s.codeGenHighwater + 8) := by
  induction ops generalizing s A with
  | nil =>
    obtain ⟨b, hfin, hend, hin⟩ := tcgOutPoolFinalize_spec h ht
    have hb := hfin.bound
    have hle := hfin.le
    refine ⟨hfin.writesIn hlo ?_, ⟨A, hin⟩, fun hr => ?_⟩
    · rw [regionEnd, tcgHighwater]
      omega
    · rw [hend hr]
      omega
  | cons op ops ih =>
    rw [List.forall_mem_cons] at hops
    obtain ⟨u, hu, ht⟩ := bind_eq_some_iff.mp ht
    have hemit := emitOps_spec h hlo hu
    have hsize := hemit.size
    have hle := hemit.grown.le
    have hwater := hemit.grown.highwater
    have hroom : u.codePtr ≤ s.regionEnd := by
      rw [regionEnd]
      omega
    have hwrites := hemit.writesIn hlo hroom
    obtain ⟨B, hB⟩ := hemit.poolIn
    rw [max_eq_left hroom] at hB
    split at ht
    · cases ht
      exact ⟨hwrites, ⟨B, hB⟩, fun hr => (nomatch hr)⟩
    · rename_i hbelow
      split at ht
      · cases ht
        exact ⟨hwrites, ⟨B, hB⟩, fun hr => (nomatch hr)⟩
      · have hregion : u.regionEnd = s.regionEnd := by rw [regionEnd, regionEnd, hwater]
        obtain ⟨hrest, hin, hend⟩ := ih (hregion ▸ hB) (by omega) (by omega) hops.2 ht
        rw [hregion] at hrest hin
        rw [hwater] at hend
        exact ⟨hwrites.trans hrest, hin, hend⟩

theorem encodeSearch_spec {es : List (List UInt8)} (h : PoolIn A lo s.regionEnd s)
    (hlo : lo ≤ s.codePtr) (hptr : s.codePtr ≤ s.codeGenHighwater + 8)
    (hes : ∀ e ∈ es, e.length ≤ 40) (ht : s.encodeSearch es = (r, t)) :
    WritesIn lo s.regionEnd s t ∧ PoolIn A lo s.regionEnd t ∧ (r = .ok → lo ≤ t.codePtr) := by
  induction es generalizing s with
  | nil =>
    cases ht
    exact ⟨⟨fun _ _ => rfl, le_max_left _ _, rfl, rfl⟩, h, fun _ => hlo⟩
  | cons e es ih =>
    rw [List.forall_mem_cons] at hes
    have hgrown := grown_tcgOut s e
    have hle := hgrown.le
    have hlen : (s.tcgOut e).codePtr = s.codePtr + e.length := rfl
    have hroom : s.codePtr + e.length ≤ s.regionEnd := by
      rw [regionEnd, tcgHighwater]
      omega
    have hpool : PoolIn A lo s.regionEnd (s.tcgOut e) :=
      h.congr (store_poolLabels s _ _) (store_pool s _ _)
    have hwrites : WritesIn lo s.regionEnd s (s.tcgOut e) := by
      refine ⟨fun x hx => hgrown.mem x (by omega), ?_, hgrown.codeGenPtr, hgrown.highwater⟩
      have he := hgrown.emitted
      omega
    simp only [encodeSearch] at ht
    split at ht
    · cases ht
      exact ⟨hwrites, hpool, fun hr => (nomatch hr)⟩
    · rename_i hbelow
      have hwater := hgrown.highwater
      have hregion : (s.tcgOut e).regionEnd = s.regionEnd := by rw [regionEnd, regionEnd, hwater]
      obtain ⟨hrest, hin, hend⟩ := ih (hregion ▸ hpool) (by omega) (by omega) hes.2 ht
      rw [hregion] at hrest hin
      exact ⟨hwrites.trans hrest, hin, hend⟩

def PoolInRegion (s : TcgContext) : Prop := ∃ A, PoolIn A 0 s.regionEnd s

/-- What a part of block generation does: it writes from `code_gen_ptr` on and not past the region,
and keeps the labels of the list in the region. -/
structure BlockWrites (s t : TcgContext) : Prop where
  writesIn : WritesIn s.codeGenPtr s.regionEnd s t
  poolIn : s.PoolInRegion → t.PoolInRegion

theorem WritesIn.regionEnd (h : WritesIn lo hi s t) : t.regionEnd = s.regionEnd := by
  rw [TcgContext.regionEnd, TcgContext.regionEnd, h.highwater]

theorem PoolIn.of_zero (h : PoolIn A lo hi s) : PoolIn A 0 hi s :=
  ⟨h.head, h.next, fun a ha => ⟨Nat.zero_le _, (h.label a ha).2⟩⟩

theorem genBlockCode_spec {b : BlockCode}
    (hptr : s.codeGenPtr ≤ s.codeGenHighwater) (ht : s.genBlockCode fuel b = some (r, t)) :
    BlockWrites s t ∧ (r = .ok → s.codeGenPtr ≤ t.codePtr) := by
  obtain ⟨⟨q, u⟩, hu, hrt⟩ := map_eq_some_iff.mp ht
  obtain ⟨hwrites, ⟨B, hB⟩, hend⟩ := genOps_spec (poolIn_of_none rfl _ _) le_rfl hptr b.ops_le hu
  replace hwrites : WritesIn s.codeGenPtr s.regionEnd s u :=
    ⟨hwrites.mem, hwrites.emitted, hwrites.codeGenPtr, hwrites.highwater⟩
  replace hB : PoolIn B s.codeGenPtr u.regionEnd u := hwrites.regionEnd ▸ hB
  cases q with
  | overflow =>
    cases hrt
    exact ⟨⟨hwrites, fun _ => ⟨B, hB.of_zero⟩⟩, fun hr => (nomatch hr)⟩
  | tooLarge =>
    cases hrt
    exact ⟨⟨hwrites, fun _ => ⟨B, hB.of_zero⟩⟩, fun hr => (nomatch hr)⟩
  | ok =>
    obtain ⟨hlo, hhi⟩ := hend rfl
    obtain ⟨hrest, hin, hlast⟩ :=
      encodeSearch_spec hB hlo (hwrites.highwater ▸ hhi) b.search_le hrt
    rw [← hrest.regionEnd] at hin
    rw [hwrites.regionEnd] at hrest
    exact ⟨⟨hwrites.trans hrest, fun _ => ⟨B, hin.of_zero⟩⟩, hlast⟩

theorem BlockWrites.trans (h : BlockWrites s t) (h' : BlockWrites t u) :
    BlockWrites s u := by
  have hwrites := h'.writesIn
  rw [h.writesIn.regionEnd, h.writesIn.codeGenPtr] at hwrites
  exact ⟨h.writesIn.trans hwrites, fun hs => h'.poolIn (h.poolIn hs)⟩

theorem genAttempts_spec {bs : List BlockCode}
    (hptr : s.codeGenPtr ≤ s.codeGenHighwater) (ht : s.genAttempts fuel bs = some (r, t)) :
    BlockWrites s t ∧ (r = .ok → s.codeGenPtr ≤ t.codePtr) := by
  induction bs generalizing s with
  | nil =>
    cases ht
    exact ⟨⟨⟨fun _ _ => rfl, le_max_left _ _, rfl, rfl⟩, fun h => h⟩, fun hr => (nomatch hr)⟩
  | cons b bs ih =>
    obtain ⟨⟨q, u⟩, hu, ht⟩ := bind_eq_some_iff.mp ht
    obtain ⟨hwrites, hend⟩ := genBlockCode_spec hptr hu
    cases q with
    | ok =>
      cases ht
      exact ⟨hwrites, hend⟩
    | overflow =>
      cases ht
      exact ⟨hwrites, hend⟩
    | tooLarge =>
      -- the next attempt starts at the same `code_gen_ptr`
      have hwater := hwrites.writesIn.highwater
      have hgen := hwrites.writesIn.codeGenPtr
      obtain ⟨hrest, hlast⟩ := ih (by omega) ht
      rw [hgen] at hlast
      exact ⟨hwrites.trans hrest, hlast⟩

structure RegionWrites (s t : TcgContext) : Prop where
  emitted : t.emitted ≤ max s.emitted s.regionEnd
  highwater : t.codeGenHighwater = s.codeGenHighwater
  poolIn : s.PoolInRegion → t.PoolInRegion

theorem RegionWrites.refl (s : TcgContext) : RegionWrites s s :=
  ⟨le_max_left _ _, rfl, fun h => h⟩

theorem RegionWrites.regionEnd (h : RegionWrites s t) : t.regionEnd = s.regionEnd := by
  rw [TcgContext.regionEnd, TcgContext.regionEnd, h.highwater]

theorem RegionWrites.trans (h : RegionWrites s t) (h' : RegionWrites t u) :
    RegionWrites s u := by
  refine ⟨?_, h'.highwater.trans h.highwater, fun hs => h'.poolIn (h.poolIn hs)⟩
  have he := h.emitted
  have he' := h'.emitted
  rw [h.regionEnd] at he'
  omega

theorem store_header {tb : ℕ} {header : List UInt8} (htb : s.codeGenPtr ≤ tb)
    (hroom : tb + header.length ≤ s.codeGenHighwater) :
    RegionWrites s (s.store tb header) ∧
      ∀ x < s.codeGenPtr, (s.store tb header).mem x = s.mem x := by
  have hwater := store_codeGenHighwater s tb header
  refine ⟨⟨?_, hwater, fun ⟨A, hA⟩ => ⟨A, ?_⟩⟩, fun x hx => store_outside s tb header (by omega)⟩
  · have he := store_emitted s tb header
    rw [regionEnd]
    omega
  · rw [regionEnd, hwater]
    exact hA.congr (store_poolLabels s _ _) (store_pool s _ _)

/-- Generating a block writes from `code_gen_ptr` on and not past the region, and moves
`code_gen_ptr` up. -/
theorem tbGenCodeInternal_spec {b : Block} (ht : s.tbGenCodeInternal fuel b = some t) :
    RegionWrites s t ∧ s.codeGenPtr ≤ t.codeGenPtr ∧ ∀ x < s.codeGenPtr, t.mem x = s.mem x := by
  rw [tbGenCodeInternal, tcgTbAlloc] at ht
  have htb := le_roundUp s.codeGenPtr (d := qemuIcacheLinesize) (by decide)
  generalize roundUp s.codeGenPtr qemuIcacheLinesize = tb at ht htb
  by_cases hfull : s.codeGenHighwater < tb + b.header.length
  · simp only [hfull, if_true] at ht
    cases ht
    exact ⟨RegionWrites.refl s, le_rfl, fun _ _ => rfl⟩
  · simp only [hfull, if_false] at ht
    obtain ⟨hheader, hmem⟩ := store_header htb (not_lt.mp hfull)
    split at ht
    · cases ht
      refine ⟨⟨hheader.emitted, hheader.highwater, fun h => ?_⟩, ?_, hmem⟩
      · obtain ⟨A, hA⟩ := hheader.poolIn h
        exact ⟨A, hA.congr rfl rfl⟩
      · show s.codeGenPtr ≤ if b.existing then tb else tb + b.header.length
        split <;> omega
    · obtain ⟨⟨r, v⟩, hv, hrt⟩ := map_eq_some_iff.mp ht
      let u : TcgContext := { s.store tb b.header with codeGenPtr := tb + b.header.length }
      have hu : RegionWrites s u := by
        refine ⟨hheader.emitted, hheader.highwater, fun h => ?_⟩
        obtain ⟨A, hA⟩ := hheader.poolIn h
        exact ⟨A, hA.congr rfl rfl⟩
      have huwater := hu.highwater
      have huptr : u.codeGenPtr = tb + b.header.length := rfl
      obtain ⟨hcode, hend⟩ := genAttempts_spec (s := u) (by omega) hv
      have hwrites : RegionWrites s v :=
        hu.trans ⟨hcode.writesIn.emitted, hcode.writesIn.highwater, hcode.poolIn⟩
      have hvmem : ∀ x < s.codeGenPtr, v.mem x = s.mem x := fun x hx => by
        rw [hcode.writesIn.mem x (by omega)]
        exact hmem x hx
      have hvptr : s.codeGenPtr ≤ v.codeGenPtr := by
        have hsame := hcode.writesIn.codeGenPtr
        omega
      cases r with
      | ok =>
        cases hrt
        have hlast := le_roundUp v.codePtr (d := 16) (by decide)
        have hptr := hend rfl
        refine ⟨⟨hwrites.emitted, hwrites.highwater, fun h => ?_⟩, ?_, hvmem⟩
        · obtain ⟨A, hA⟩ := hwrites.poolIn h
          exact ⟨A, hA.congr rfl rfl⟩
        · show s.codeGenPtr ≤ if b.existing then tb else roundUp v.codePtr 16
          split <;> omega
      | overflow =>
        cases hrt
        exact ⟨hwrites, hvptr, hvmem⟩
      | tooLarge =>
        cases hrt
        exact ⟨hwrites, hvptr, hvmem⟩

/-- A unit that starts below the high-water mark and is not longer than the distance from there to
the end stays in the region, whatever references are left over. -/
theorem codeGenUnit_inRegion {ops : List EmitOp}
    (h : s.PoolInRegion) (hptr : s.codeGenPtr ≤ s.codeGenHighwater)
    (hsize : EmitOp.total ops + 7 ≤ tcgHighwater) (ht : s.codeGenUnit fuel ops = some (r, t)) :
    RegionWrites s t := by
  obtain ⟨A, hA⟩ := h
  obtain ⟨u, hu, ht⟩ := bind_eq_some_iff.mp ht
  have hstart : PoolIn A 0 s.regionEnd s.codeGenStart := hA.congr rfl rfl
  have hemit := emitOps_spec hstart (Nat.zero_le _) hu
  have husize : u.codePtr ≤ s.codeGenPtr + EmitOp.total ops := hemit.size
  have huroom : u.codePtr + 7 ≤ s.regionEnd := by
    rw [regionEnd]
    omega
  obtain ⟨B, hB⟩ := hemit.poolIn
  rw [max_eq_left (by omega)] at hB
  have huwater : u.codeGenHighwater = s.codeGenHighwater := hemit.grown.highwater
  have huemitted : u.emitted ≤ max s.emitted u.codePtr := hemit.grown.emitted
  obtain ⟨⟨q, v⟩, hv, hrt⟩ := map_eq_some_iff.mp ht
  obtain ⟨b, hfin, -, hin⟩ := tcgOutPoolFinalize_spec hB hv
  have hb : b ≤ s.regionEnd := by
    have hbound := hfin.bound
    rw [regionEnd, tcgHighwater] at *
    omega
  have hwater : v.codeGenHighwater = s.codeGenHighwater := hfin.highwater.trans huwater
  have hregion : v.regionEnd = s.regionEnd := by
    rw [regionEnd, regionEnd, hwater]
  have hwrites : RegionWrites s v := by
    refine ⟨?_, hwater, fun _ => ⟨B, hregion ▸ hin⟩⟩
    have he := hfin.emitted
    omega
  cases q with
  | ok =>
    cases hrt
    refine ⟨hwrites.emitted, hwater, fun _ => ⟨B, ?_⟩⟩
    exact PoolIn.congr (hregion ▸ hin : PoolIn B 0 v.regionEnd v) rfl rfl
  | overflow =>
    cases hrt
    exact hwrites
  | tooLarge =>
    cases hrt
    exact hwrites

end TcgContext
end Iqemu64
