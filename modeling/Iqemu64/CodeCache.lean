import Iqemu64.BlockFrame

/-!
# The code cache

Trampoline tables, translation caches and translation blocks hold pointers into one buffer. A flush
starts the buffer over and drops the blocks, but no entry of a table. A host function that emitted
code has called returns into that code.
-/

namespace Iqemu64
open TcgContext List

/-- The addresses from `lo` up to `hi`. -/
structure CodeRange where
  lo : ℕ
  hi : ℕ
  deriving DecidableEq

/-- The context, the start of its region, the entries of the trampoline tables and translation
caches, the blocks, and the code that host calls in progress return to. -/
structure CodeCache (K : Type) where
  ctx : TcgContext
  start : ℕ
  tables : List (K × CodeRange)
  blocks : List CodeRange
  calls : List CodeRange

inductive CacheEvent (K : Type) where
  | request (key : K) (ops : List EmitOp)
  | handler (ops : List EmitOp)
  | genBlock (b : Block)
  | flush
  | hostCall (r : CodeRange)
  | hostReturn (r : CodeRange)

namespace CodeCache

variable {K : Type} [DecidableEq K]

def held (s : CodeCache K) : List CodeRange := s.tables.map Prod.snd ++ s.blocks ++ s.calls

def emit (fuel : ℕ) (s : CodeCache K) : CacheEvent K → Option (GenResult × TcgContext)
  | .request key ops =>
    if key ∈ s.tables.map Prod.fst then some (.ok, s.ctx) else s.ctx.codeGenUnit fuel ops
  | .handler ops => s.ctx.codeGenUnit fuel ops
  | .genBlock b => (s.ctx.tbGenCodeInternal fuel b).map fun t => (.ok, t)
  | .flush => some (.ok, { s.ctx with codeGenPtr := s.start })
  | .hostCall r => if r ∈ s.held then some (.ok, s.ctx) else none
  | .hostReturn _ => some (.ok, s.ctx)

def record (s : CodeCache K) (t : TcgContext) : CacheEvent K → CodeCache K
  | .request key _ => { s with
      ctx := t
      tables := if key ∈ s.tables.map Prod.fst then s.tables
        else (key, ⟨s.ctx.codeGenPtr, t.codeGenPtr⟩) :: s.tables }
  | .handler _ => { s with ctx := t, blocks := ⟨s.ctx.codeGenPtr, t.codeGenPtr⟩ :: s.blocks }
  | .genBlock _ => { s with ctx := t, blocks := ⟨s.ctx.codeGenPtr, t.codeGenPtr⟩ :: s.blocks }
  | .flush => { s with ctx := t, blocks := [] }
  | .hostCall r => { s with ctx := t, calls := r :: s.calls }
  | .hostReturn r => { s with ctx := t, calls := s.calls.erase r }

@[simp]
theorem record_ctx (s : CodeCache K) (t : TcgContext) (e : CacheEvent K) :
    (s.record t e).ctx = t := by
  cases e <;> rfl

def Step (s : CodeCache K) (e : CacheEvent K) (t : CodeCache K) : Prop :=
  ∃ fuel ctx, s.emit fuel e = some (.ok, ctx) ∧ t = s.record ctx e

/-! ### Lifetime of the entries -/

/-- The event emits nothing over code that stays held, and leaves its bytes. -/
def Intact (s : CodeCache K) (e : CacheEvent K) : Prop :=
  ∀ t, Step s e t → ∀ r ∈ s.held, r ∈ t.held → ∀ x, r.lo ≤ x → x < r.hi →
    (x < s.ctx.codeGenPtr ∨ t.ctx.codeGenPtr ≤ x) ∧ t.ctx.mem x = s.ctx.mem x

/-- The buffer is started over only while no table has an entry and no host call is in progress, and
no reference to a pool word is left over where a unit starts. -/
def Retired (s : CodeCache K) : CacheEvent K → Prop
  | .request key _ => key ∈ s.tables.map Prod.fst ∨ s.ctx.poolLabels = none
  | .handler _ => s.ctx.poolLabels = none
  | .flush => s.tables = [] ∧ s.calls = []
  | _ => True

def Below (s : CodeCache K) : Prop := ∀ r ∈ s.held, r.hi ≤ s.ctx.codeGenPtr

/-- A flush apart, an event moves `code_gen_ptr` up and changes no byte below it. -/
theorem emit_above {fuel : ℕ} {s : CodeCache K} {e : CacheEvent K} {t : TcgContext}
    (h : Retired s e) (hflush : e ≠ .flush) (ht : s.emit fuel e = some (.ok, t)) :
    s.ctx.codeGenPtr ≤ t.codeGenPtr ∧ ∀ x < s.ctx.codeGenPtr, t.mem x = s.ctx.mem x := by
  cases e with
  | request key ops =>
    rw [emit] at ht
    split at ht
    · cases ht
      exact ⟨le_rfl, fun _ _ => rfl⟩
    · rename_i hmiss
      obtain ⟨hle, hmem⟩ := codeGenUnit_own (h.resolve_left hmiss) ht
      exact ⟨hle, fun x hx => hmem x (.inl hx)⟩
  | handler ops =>
    obtain ⟨hle, hmem⟩ := codeGenUnit_own h ht
    exact ⟨hle, fun x hx => hmem x (.inl hx)⟩
  | genBlock b =>
    obtain ⟨u, hu, heq⟩ := Option.map_eq_some_iff.mp ht
    cases heq
    exact (tbGenCodeInternal_spec hu).2
  | flush => exact absurd rfl hflush
  | hostCall r =>
    rw [emit] at ht
    split at ht
    · cases ht
      exact ⟨le_rfl, fun _ _ => rfl⟩
    · cases ht
  | hostReturn r =>
    cases ht
    exact ⟨le_rfl, fun _ _ => rfl⟩

/-- A flush apart, only the code of the event itself is new. -/
theorem mem_held_record {fuel : ℕ} {s : CodeCache K} {e : CacheEvent K} {t : TcgContext}
    (ht : s.emit fuel e = some (.ok, t)) {r : CodeRange} (hr : r ∈ (s.record t e).held) :
    r ∈ s.held ∨ r = ⟨s.ctx.codeGenPtr, t.codeGenPtr⟩ := by
  cases e with
  | request key ops =>
    by_cases hkey : key ∈ s.tables.map Prod.fst
    · simp only [record, hkey, if_true] at hr
      exact .inl hr
    · simp only [record, hkey, if_false, held, map_cons, cons_append,
        mem_cons] at hr
      exact hr.symm
  | handler ops =>
    simp only [record, held, mem_append, mem_cons] at hr ⊢
    tauto
  | genBlock b =>
    simp only [record, held, mem_append, mem_cons] at hr ⊢
    tauto
  | flush =>
    simp only [record, held, mem_append, not_mem_nil, or_false] at hr ⊢
    tauto
  | hostCall q =>
    rw [emit] at ht
    split at ht
    · rename_i hq
      simp only [record, held, mem_append, mem_cons] at hr
      rcases hr with (hr | hr) | rfl | hr
      · exact .inl (by simp [held, hr])
      · exact .inl (by simp [held, hr])
      · exact .inl hq
      · exact .inl (by simp [held, hr])
    · cases ht
  | hostReturn q =>
    simp only [record, held, mem_append] at hr
    rcases hr with (hr | hr) | hr
    · exact .inl (by simp [held, hr])
    · exact .inl (by simp [held, hr])
    · exact .inl (by simp [held, mem_of_mem_erase hr])

theorem Below.step {s t : CodeCache K} {e : CacheEvent K} (hs : Below s) (h : Retired s e)
    (ht : Step s e t) : Below t := by
  obtain ⟨fuel, ctx, hemit, rfl⟩ := ht
  intro r hr
  rw [record_ctx]
  by_cases hflush : e = .flush
  · subst hflush
    simp [record, held, h.1, h.2] at hr
  · obtain ⟨hle, -⟩ := emit_above h hflush hemit
    rcases mem_held_record hemit hr with hold | rfl
    · exact (hs r hold).trans hle
    · exact le_rfl

theorem Below.intact {s : CodeCache K} {e : CacheEvent K} (hs : Below s) (h : Retired s e) :
    Intact s e := by
  rintro t ⟨fuel, ctx, hemit, rfl⟩ r hr hr' x hlo hhi
  rw [record_ctx]
  by_cases hflush : e = .flush
  · subst hflush
    simp [record, held, h.1, h.2] at hr'
  · have hx : x < s.ctx.codeGenPtr := hhi.trans_le (hs r hr)
    exact ⟨.inl hx, (emit_above h hflush hemit).2 x hx⟩

end CodeCache

section Lifetime
variable {K : Type} [DecidableEq K]

/-- From an empty cache on, nothing is emitted over code that is held as long as the buffer is
started over only when all but the blocks is retired. -/
theorem codeCache_intact (s : CodeCache K) (hs : s.held = []) (es : List (CacheEvent K))
    (hretired : Runs.Along CodeCache.Step CodeCache.Retired s es) :
    Runs.Along CodeCache.Step CodeCache.Intact s es := by
  have hbelow : CodeCache.Below s := by simp [CodeCache.Below, hs]
  have hinv := hretired.invariant (I := CodeCache.Below) (fun _ _ _ hs h ht => hs.step h ht) hbelow
  exact hinv.mono fun _ _ h => h.1.intact h.2

end Lifetime

def freshCache : CodeCache ℕ := ⟨freshContext, 0x10000, [], [], []⟩

def hostBlock : Block := ⟨replicate 192 0, [], false⟩

/-- A trampoline, a block behind it, and a host call from the trampoline. -/
theorem codeCache_intact_trampoline_block :
    Runs.Along CodeCache.Step CodeCache.Intact freshCache
      [.request 7 [.bytes [0xeb, 0x0c]], .genBlock hostBlock, .hostCall ⟨0x10000, 0x10010⟩] := by
  refine codeCache_intact _ rfl _ ⟨.inr rfl, fun t _ => ⟨trivial, fun u _ => ⟨trivial, ?_⟩⟩⟩
  exact fun _ _ => trivial

theorem tbGenCodeInternal_hostBlock (fuel : ℕ) (s : TcgContext)
    (hroom : roundUp s.codeGenPtr qemuIcacheLinesize + 192 ≤ s.codeGenHighwater) :
    ∃ t, s.tbGenCodeInternal fuel hostBlock = some t ∧
      t.mem (roundUp s.codeGenPtr qemuIcacheLinesize) = 0 := by
  have hfull : ¬ s.codeGenHighwater <
      roundUp s.codeGenPtr qemuIcacheLinesize + hostBlock.header.length := not_lt.mpr hroom
  simp only [tbGenCodeInternal, tcgTbAlloc, if_neg hfull]
  refine ⟨_, rfl, ?_⟩
  have hfirst := store_inside s (roundUp s.codeGenPtr qemuIcacheLinesize) hostBlock.header (k := 0)
    (by rw [hostBlock, length_replicate]; omega)
  rw [Nat.add_zero] at hfirst
  exact hfirst

/-- After a flush the record of a block is written over a trampoline that its table still holds. -/
theorem codeCache_intact_flush :
    ¬ Runs.Along CodeCache.Step CodeCache.Intact freshCache
      [.request 7 [.bytes [0xeb, 0x0c]], .flush, .genBlock hostBlock] := by
  intro h
  obtain ⟨t, ht, htables, hstart, hwater, hbyte⟩ : ∃ t, CodeCache.Step freshCache
      (.request 7 [.bytes [0xeb, 0x0c]]) t ∧ t.tables = [(7, ⟨0x10000, 0x10010⟩)] ∧
        t.start = 0x10000 ∧ t.ctx.codeGenHighwater = 0x20000 ∧ t.ctx.mem 0x10000 = 0xeb :=
    ⟨_, ⟨1, _, rfl, rfl⟩, rfl, rfl, rfl, rfl⟩
  let u := t.record { t.ctx with codeGenPtr := t.start } .flush
  have hu : CodeCache.Step t .flush u := ⟨0, _, rfl, rfl⟩
  have hplace : roundUp u.ctx.codeGenPtr qemuIcacheLinesize = 0x10000 := by
    show roundUp t.start qemuIcacheLinesize = 0x10000
    rw [hstart]
    rfl
  obtain ⟨c, hc, hzero⟩ := tbGenCodeInternal_hostBlock 0 u.ctx (by
    rw [hplace]
    exact hwater ▸ (by decide))
  have hv : CodeCache.Step u (.genBlock hostBlock) (u.record c (.genBlock hostBlock)) :=
    ⟨0, c, by rw [CodeCache.emit, hc]; rfl, rfl⟩
  have hheld : ⟨0x10000, 0x10010⟩ ∈ u.held := by
    show _ ∈ t.tables.map Prod.snd ++ [] ++ t.calls
    simp [htables]
  have hheld' : ⟨0x10000, 0x10010⟩ ∈ (u.record c (.genBlock hostBlock)).held := by
    show _ ∈ t.tables.map Prod.snd ++ _ ++ t.calls
    simp [htables]
  have hsame := (((h.2 t ht).2 u hu).1 _ hv _ hheld hheld' 0x10000 le_rfl (by decide)).2
  rw [CodeCache.record_ctx, ← hplace, hzero, hplace] at hsame
  exact absurd (hsame.trans hbyte) (by decide)

/-! ### The end of the region -/

namespace CodeCache

variable {K : Type} [DecidableEq K]

/-- No byte is emitted past the end of the region, also not before a failure. -/
def InRegion (s : CodeCache K) (e : CacheEvent K) : Prop :=
  ∀ fuel r t, s.emit fuel e = some (r, t) → t.emitted ≤ s.ctx.regionEnd

/-- A unit that is emitted starts below the high-water mark, where a block would start too, and has
at most the length that is kept free behind the mark. -/
def HasRoom (s : CodeCache K) : CacheEvent K → Prop
  | .request key ops => key ∈ s.tables.map Prod.fst ∨
      s.ctx.codeGenPtr ≤ s.ctx.codeGenHighwater ∧ EmitOp.total ops + 7 ≤ tcgHighwater
  | .handler ops =>
      s.ctx.codeGenPtr ≤ s.ctx.codeGenHighwater ∧ EmitOp.total ops + 7 ≤ tcgHighwater
  | _ => True

def Inside (s : CodeCache K) : Prop := s.ctx.emitted ≤ s.ctx.regionEnd ∧ s.ctx.PoolInRegion

theorem emit_regionWrites {fuel : ℕ} {s : CodeCache K} {e : CacheEvent K} {r : GenResult}
    {t : TcgContext} (hpool : s.ctx.PoolInRegion) (h : HasRoom s e)
    (ht : s.emit fuel e = some (r, t)) : RegionWrites s.ctx t := by
  cases e with
  | request key ops =>
    rw [emit] at ht
    split at ht
    · cases ht
      exact RegionWrites.refl _
    · rename_i hmiss
      obtain ⟨hptr, hsize⟩ := h.resolve_left hmiss
      exact codeGenUnit_inRegion hpool hptr hsize ht
  | handler ops => exact codeGenUnit_inRegion hpool h.1 h.2 ht
  | genBlock b =>
    obtain ⟨u, hu, heq⟩ := Option.map_eq_some_iff.mp ht
    cases heq
    exact (tbGenCodeInternal_spec hu).1
  | flush =>
    cases ht
    refine ⟨le_max_left _ _, rfl, fun ⟨A, hA⟩ => ⟨A, hA.congr rfl rfl⟩⟩
  | hostCall q =>
    rw [emit] at ht
    split at ht
    · cases ht
      exact RegionWrites.refl _
    · cases ht
  | hostReturn q =>
    cases ht
    exact RegionWrites.refl _

theorem Inside.inRegion {s : CodeCache K} {e : CacheEvent K} (hs : Inside s) (h : HasRoom s e) :
    InRegion s e := by
  intro fuel r t ht
  have he := (emit_regionWrites hs.2 h ht).emitted
  rwa [max_eq_right hs.1] at he

theorem Inside.step {s t : CodeCache K} {e : CacheEvent K} (hs : Inside s) (h : HasRoom s e)
    (ht : Step s e t) : Inside t := by
  obtain ⟨fuel, ctx, hemit, rfl⟩ := ht
  have hwrites := emit_regionWrites hs.2 h hemit
  rw [Inside, record_ctx, hwrites.regionEnd]
  exact ⟨hs.inRegion h fuel .ok ctx hemit, hwrites.poolIn hs.2⟩

end CodeCache

/-- Emission stays inside the region as long as units get the room that blocks are given. -/
theorem codeCache_inRegion {K : Type} [DecidableEq K] (s : CodeCache K)
    (hs : s.ctx.emitted ≤ s.ctx.regionEnd) (hempty : s.ctx.poolLabels = none)
    (es : List (CacheEvent K)) (hroom : Runs.Along CodeCache.Step CodeCache.HasRoom s es) :
    Runs.Along CodeCache.Step CodeCache.InRegion s es := by
  have hinside : CodeCache.Inside s := ⟨hs, ∅, poolIn_of_none hempty _ _⟩
  have hinv := hroom.invariant (I := CodeCache.Inside) (fun _ _ _ hs h ht => hs.step h ht) hinside
  exact hinv.mono fun _ _ h => h.1.inRegion h.2

theorem codeCache_inRegion_trampoline_block :
    Runs.Along CodeCache.Step CodeCache.InRegion freshCache
      [.request 7 farJump, .genBlock hostBlock] := by
  refine codeCache_inRegion _ (by decide) rfl _ ⟨.inr (by decide), fun t _ => ⟨trivial, ?_⟩⟩
  exact fun _ _ => trivial

def longUnit : List EmitOp := [.bytes (replicate 512 0x90)]

theorem codeGenUnit_longUnit (fuel : ℕ) (s : TcgContext) (hempty : s.poolLabels = none)
    (halign : s.codeGenPtr % 16 = 0) :
    ∃ t, s.codeGenUnit fuel longUnit = some (.ok, t) ∧ t.poolLabels = none ∧
      t.codeGenPtr = s.codeGenPtr + 512 ∧ t.codeGenHighwater = s.codeGenHighwater ∧
        s.codeGenPtr + 512 ≤ t.emitted := by
  have hlen : (replicate 512 (0x90 : UInt8)).length = 512 := length_replicate
  refine ⟨_, codeGenUnit_bytes fuel s _ hempty, ?_, ?_, ?_, ?_⟩
  · exact (store_poolLabels s.codeGenStart _ _).trans hempty
  · show roundUp (s.codeGenPtr + (replicate 512 (0x90 : UInt8)).length) 16 = _
    rw [hlen, roundUp]
    omega
  · exact store_codeGenHighwater s.codeGenStart _ _
  · have he := le_store_emitted s.codeGenStart s.codeGenPtr (replicate 512 0x90)
      (by rw [hlen]; omega)
    rwa [hlen] at he

/-- Requests for different keys fill the buffer, however full it is. -/
theorem reaches_longUnits (n : ℕ) :
    ∃ t, Runs.Reaches CodeCache.Step freshCache
        ((range n).map fun k => .request k longUnit) t ∧
      t.ctx.poolLabels = none ∧ t.ctx.codeGenPtr = 0x10000 + 512 * n ∧
        t.ctx.codeGenHighwater = 0x20000 ∧ ∀ k ∈ t.tables.map Prod.fst, k < n := by
  induction n with
  | zero => exact ⟨freshCache, .nil _, rfl, rfl, rfl, by simp [freshCache]⟩
  | succ n ih =>
    obtain ⟨t, hreach, hempty, hptr, hwater, hkeys⟩ := ih
    obtain ⟨c, hc, hcempty, hcptr, hcwater, -⟩ := codeGenUnit_longUnit 0 t.ctx hempty (by omega)
    have hmiss : n ∉ t.tables.map Prod.fst := fun hmem => Nat.lt_irrefl n (hkeys n hmem)
    have hstep : CodeCache.Step t (.request n longUnit) (t.record c (.request n longUnit)) :=
      ⟨0, c, by rw [CodeCache.emit, if_neg hmiss, hc], rfl⟩
    refine ⟨t.record c (.request n longUnit), ?_, ?_⟩
    · rw [range_succ, map_append]
      exact hreach.snoc hstep
    · rw [CodeCache.record_ctx]
      refine ⟨hcempty, by rw [hcptr, hptr, Nat.mul_succ, Nat.add_assoc], hcwater.trans hwater,
        fun k hk => ?_⟩
      simp only [CodeCache.record, if_neg hmiss, map_cons, mem_cons] at hk
      rcases hk with rfl | hk
      · exact Nat.lt_succ_self k
      · exact (hkeys k hk).trans (Nat.lt_succ_self n)

/-- In a buffer of 64 KiB the 131st translation function is written past the end. -/
theorem codeCache_inRegion_131_requests :
    ¬ Runs.Along CodeCache.Step CodeCache.InRegion freshCache
      ((range 131).map fun k => .request k longUnit) := by
  intro h
  obtain ⟨t, hreach, hempty, hptr, hwater, hkeys⟩ := reaches_longUnits 130
  obtain ⟨c, hc, -, -, -, hemitted⟩ := codeGenUnit_longUnit 0 t.ctx hempty (by omega)
  have hmiss : 130 ∉ t.tables.map Prod.fst := fun hmem => Nat.lt_irrefl 130 (hkeys 130 hmem)
  rw [range_succ, map_append] at h
  have hin := h.of_reaches hreach 0 .ok c (by rw [CodeCache.emit, if_neg hmiss, hc])
  rw [regionEnd, tcgHighwater] at hin
  omega

end Iqemu64
