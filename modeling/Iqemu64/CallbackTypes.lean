import Iqemu64.Runs
import Iqemu64.Trampolines

/-!
# The types of callbacks

A callback's trampoline holds the pair of functions that translate its arguments and its result. The
pair is generated for a type string and kept under the address of that string; the trampoline is kept
under the address of the callback. Neither table sees the characters of the string.
-/

namespace Iqemu64
open TcgContext Option Function

/-- The code of the two functions for a signature, `none` where `get_fn_info_from_types` or
`get_fn_info_from_name` fails. -/
abbrev X2aGenerator := String → Option (List EmitOp × List EmitOp)

structure GeneratedPair where
  entryTranslation : BitVec 64
  exitTranslation : BitVec 64
  signature : String

structure CallbackState where
  tramp : TrampolineState
  nameX2a : BitVec 64 → Option (BitVec 64 × BitVec 64)
  typesX2a : BitVec 64 → Option (BitVec 64 × BitVec 64)
  string : BitVec 64 → String
  generated : List GeneratedPair
  /-- What the types were when a callback got its trampoline. The code does not keep this. -/
  asked : BitVec 64 → Option (Option String)

inductive CallbackEvent where
  | request (callback types : BitVec 64)
  | reuse (types : BitVec 64) (content : String)

def isFakeName (types : String) : Bool :=
  types.toList.head? = some '0' || types.toList.head? = some '1'

namespace CallbackState

def content (s : CallbackState) (types : BitVec 64) : Option String :=
  if types = 0 then none else some (s.string types)

def x2aCodeptr (s : CallbackState) (types : BitVec 64) : Option (BitVec 64 × BitVec 64) :=
  if isFakeName (s.string types) then s.nameX2a types else s.typesX2a types

def setX2aCodeptr (s : CallbackState) (types : BitVec 64) (pair : BitVec 64 × BitVec 64) :
    CallbackState :=
  if isFakeName (s.string types) then
    { s with nameX2a := update s.nameX2a types (some pair) }
  else { s with typesX2a := update s.typesX2a types (some pair) }

variable (W : EmulatedProcess) (G : X2aGenerator)

def generatePair (fuel : ℕ) (s : CallbackState) (types : BitVec 64) :
    Option ((BitVec 64 × BitVec 64) × CallbackState) :=
  match G (s.string types) with
  | none => none
  | some (entryOps, exitOps) =>
    (s.tramp.emitUnit fuel entryOps).bind fun t =>
      (t.emitUnit fuel exitOps).map fun u =>
        let entry := BitVec.ofNat 64 s.tramp.ctx.codeGenPtr
        let exit := BitVec.ofNat 64 t.ctx.codeGenPtr
        ((entry, exit), { s with
          tramp := u, generated := ⟨entry, exit, s.string types⟩ :: s.generated
          }.setX2aCodeptr types (entry, exit))

def abiX2aGetTranslationFunctionPairByTypes (fuel : ℕ) (s : CallbackState) (types : BitVec 64) :
    Option ((BitVec 64 × BitVec 64) × CallbackState) :=
  if types = 0 then some ((0, 0), s)
  else match s.x2aCodeptr types with
    | some pair => some (pair, s)
    | none => s.generatePair G fuel types

def genCallbackTrampoline (fuel : ℕ) (s : CallbackState) (callback types : BitVec 64) :
    Option (ℕ × CallbackState) :=
  if callback = 0 then some (0, s)
  else if W.needEmulation callback then
    (s.abiX2aGetTranslationFunctionPairByTypes G fuel types).bind fun (pair, t) =>
      (t.tramp.genTrampoline W fuel callback (.callback callback pair.1 pair.2)).map fun (p, u) =>
        (p, { t with tramp := u, asked := update t.asked callback (some (s.content types)) })
  else some (callback.toNat,
    { s with tramp := s.tramp.addTrampoline callback ⟨none, callback.toNat⟩ })

def callbackQueryAndAddTrampoline (fuel : ℕ) (s : CallbackState) (callback types : BitVec 64) :
    Option (ℕ × CallbackState) :=
  match s.tramp.trampolines callback with
  | some e => some (e.code, s)
  | none => s.genCallbackTrampoline W G fuel callback types

def callbackStep (fuel : ℕ) (s : CallbackState) : CallbackEvent → Option CallbackState
  | .request callback types => (s.callbackQueryAndAddTrampoline W G fuel callback types).map Prod.snd
  | .reuse types content => some { s with string := update s.string types content }

def CallbackStep (s : CallbackState) (e : CallbackEvent) (t : CallbackState) : Prop :=
  ∃ fuel, s.callbackStep W G fuel e = some t

def PairFor (s : CallbackState) (content : Option String) (entry exit : BitVec 64) : Prop :=
  match content with
  | none => entry = 0 ∧ exit = 0
  | some signature => ⟨entry, exit, signature⟩ ∈ s.generated

/-- The trampoline returned for an emulated callback is one with a pair for the types asked for. -/
def MatchesTypes (s : CallbackState) : CallbackEvent → Prop
  | .request callback types => W.needEmulation callback → callback ≠ 0 → ∀ fuel p t,
      s.callbackQueryAndAddTrampoline W G fuel callback types = some (p, t) →
        ∃ entry exit, t.tramp.trampolines callback =
            some ⟨some (.callback callback entry exit), p⟩ ∧
          t.PairFor (s.content types) entry exit
  | .reuse _ _ => True

/-- A callback keeps its types, and a string that has a pair keeps its content. -/
def KeepsTypes (s : CallbackState) : CallbackEvent → Prop
  | .request callback types => ∀ content, s.asked callback = some content → s.content types = content
  | .reuse types content => s.nameX2a types = none ∧ s.typesX2a types = none ∨ s.string types = content

structure PairsMatch (s : CallbackState) : Prop where
  nameX2a : ∀ {types pair}, s.nameX2a types = some pair →
    ⟨pair.1, pair.2, s.string types⟩ ∈ s.generated
  typesX2a : ∀ {types pair}, s.typesX2a types = some pair →
    ⟨pair.1, pair.2, s.string types⟩ ∈ s.generated

def TrampolinesMatch (s : CallbackState) : Prop :=
  ∀ callback e, s.tramp.trampolines callback = some e → W.needEmulation callback →
    ∃ content entry exit, s.asked callback = some content ∧
      e.made = some (.callback callback entry exit) ∧ s.PairFor content entry exit

end CallbackState

namespace CallbackState
variable {W : EmulatedProcess} {G : X2aGenerator} {s t : CallbackState} {fuel : ℕ}
  {types callback : BitVec 64}

theorem emitUnit_trampolines {T U : TrampolineState} {ops : List EmitOp}
    (h : T.emitUnit fuel ops = some U) : U.trampolines = T.trampolines := by
  obtain ⟨⟨r, c⟩, -, h⟩ := bind_eq_some_iff.mp h
  cases r with
  | ok =>
    cases h
    rfl
  | overflow => cases h
  | tooLarge => cases h

theorem PairFor.mono {content : Option String} {entry exit : BitVec 64}
    (h : s.PairFor content entry exit) (hgen : s.generated ⊆ t.generated) :
    t.PairFor content entry exit := by
  cases content with
  | none => exact h
  | some signature => exact hgen h

theorem PairFor.signature_mem {signature : String} {entry exit : BitVec 64}
    (h : s.PairFor (some signature) entry exit) :
    signature ∈ s.generated.map GeneratedPair.signature :=
  List.mem_map.mpr ⟨_, h, rfl⟩

structure PairKept (s t : CallbackState) : Prop where
  trampolines : t.tramp.trampolines = s.tramp.trampolines
  asked : t.asked = s.asked
  string : t.string = s.string
  generated : s.generated ⊆ t.generated

variable {pair : BitVec 64 × BitVec 64}

theorem PairsMatch.x2aCodeptr (h : s.PairsMatch)
    (hpair : s.x2aCodeptr types = some pair) : ⟨pair.1, pair.2, s.string types⟩ ∈ s.generated := by
  unfold CallbackState.x2aCodeptr at hpair
  split at hpair
  · exact h.nameX2a hpair
  · exact h.typesX2a hpair

theorem PairsMatch.setX2aCodeptr (h : s.PairsMatch) (pair : BitVec 64 × BitVec 64)
    (hpair : ⟨pair.1, pair.2, s.string types⟩ ∈ s.generated) :
    (s.setX2aCodeptr types pair).PairsMatch ∧ PairKept s (s.setX2aCodeptr types pair) := by
  have hupdate : ∀ {table : BitVec 64 → Option (BitVec 64 × BitVec 64)},
      (∀ {types pair}, table types = some pair → ⟨pair.1, pair.2, s.string types⟩ ∈ s.generated) →
      ∀ {types' pair'}, update table types (some pair) types' = some pair' →
        ⟨pair'.1, pair'.2, s.string types'⟩ ∈ s.generated := by
    intro table htable types' pair' hp
    rw [update_apply] at hp
    split at hp
    · rename_i heq
      cases hp
      rw [heq]
      exact hpair
    · exact htable hp
  unfold CallbackState.setX2aCodeptr
  split
  · exact ⟨⟨hupdate h.nameX2a, h.typesX2a⟩, rfl, rfl, rfl, List.Subset.refl _⟩
  · exact ⟨⟨h.nameX2a, hupdate h.typesX2a⟩, rfl, rfl, rfl, List.Subset.refl _⟩

theorem PairKept.trans {u : CallbackState} (h : PairKept s t) (h' : PairKept t u) : PairKept s u :=
  ⟨h'.trampolines.trans h.trampolines, h'.asked.trans h.asked, h'.string.trans h.string,
    List.Subset.trans h.generated h'.generated⟩

theorem generatePair_spec (hs : s.PairsMatch)
    (h : s.generatePair G fuel types = some (pair, t)) :
    t.PairsMatch ∧ PairKept s t ∧ ⟨pair.1, pair.2, s.string types⟩ ∈ t.generated := by
  unfold generatePair at h
  split at h
  · cases h
  · obtain ⟨T, hT, h⟩ := bind_eq_some_iff.mp h
    obtain ⟨U, hU, heq⟩ := map_eq_some_iff.mp h
    obtain ⟨rfl, rfl⟩ := Prod.mk.injEq .. ▸ heq
    have htramp := (emitUnit_trampolines hU).trans (emitUnit_trampolines hT)
    let entry := BitVec.ofNat 64 s.tramp.ctx.codeGenPtr
    let exit := BitVec.ofNat 64 T.ctx.codeGenPtr
    let grown : CallbackState :=
      { s with tramp := U, generated := ⟨entry, exit, s.string types⟩ :: s.generated }
    have hgrown : grown.PairsMatch :=
      ⟨fun hp => List.mem_cons_of_mem _ (hs.nameX2a hp),
        fun hp => List.mem_cons_of_mem _ (hs.typesX2a hp)⟩
    have hkept : PairKept s grown := ⟨htramp, rfl, rfl, List.subset_cons_self _ _⟩
    have hown : ⟨entry, exit, grown.string types⟩ ∈ grown.generated := List.mem_cons_self
    obtain ⟨hmatch, hset⟩ := hgrown.setX2aCodeptr (entry, exit) hown
    exact ⟨hmatch, hkept.trans hset, hset.generated hown⟩

theorem pairByTypes_spec (hs : s.PairsMatch)
    (h : s.abiX2aGetTranslationFunctionPairByTypes G fuel types = some (pair, t)) :
    t.PairsMatch ∧ PairKept s t ∧ t.PairFor (s.content types) pair.1 pair.2 := by
  unfold abiX2aGetTranslationFunctionPairByTypes at h
  unfold content
  split at h
  · rename_i hnull
    cases h
    rw [if_pos hnull]
    exact ⟨hs, ⟨rfl, rfl, rfl, List.Subset.refl _⟩, rfl, rfl⟩
  · rename_i hnull
    rw [if_neg hnull]
    split at h
    · rename_i hhit
      cases h
      exact ⟨hs, ⟨rfl, rfl, rfl, List.Subset.refl _⟩, hs.x2aCodeptr hhit⟩
    · exact generatePair_spec hs h

variable {p : ℕ}

theorem genTrampoline_trampolines {T U : TrampolineState} {key : BitVec 64} {made : TrampolineCode} (h : T.genTrampoline W fuel key made = some (p, U)) :
    U.trampolines = update T.trampolines key (some ⟨some made, p⟩) := by
  obtain ⟨V, hV, heq⟩ := map_eq_some_iff.mp h
  cases heq
  rw [← emitUnit_trampolines hV]
  rfl

/-- What generating a trampoline for an emulated callback does. -/
theorem genCallbackTrampoline_spec (hs : s.PairsMatch) (hemu : W.needEmulation callback)
    (hnull : callback ≠ 0) (h : s.genCallbackTrampoline W G fuel callback types = some (p, t)) :
    t.PairsMatch ∧ s.generated ⊆ t.generated ∧
      t.asked = update s.asked callback (some (s.content types)) ∧
      ∃ entry exit, t.PairFor (s.content types) entry exit ∧
        t.tramp.trampolines = update s.tramp.trampolines callback
          (some ⟨some (.callback callback entry exit), p⟩) := by
  rw [genCallbackTrampoline, if_neg hnull, if_pos hemu] at h
  obtain ⟨⟨pair, u⟩, hu, h⟩ := bind_eq_some_iff.mp h
  obtain ⟨⟨q, U⟩, hU, heq⟩ := map_eq_some_iff.mp h
  cases heq
  obtain ⟨hmatch, hkept, hpair⟩ := pairByTypes_spec hs hu
  refine ⟨⟨hmatch.nameX2a, hmatch.typesX2a⟩, hkept.generated, ?_, pair.1, pair.2, ?_, ?_⟩
  · rw [← hkept.asked]
  · cases hcontent : s.content types with
    | none =>
      rw [hcontent] at hpair
      exact hpair
    | some signature =>
      rw [hcontent] at hpair
      exact hpair
  · rw [← hkept.trampolines]
    exact genTrampoline_trampolines hU

theorem genCallbackTrampoline_other (hother : ¬ (W.needEmulation callback ∧ callback ≠ 0))
    (h : s.genCallbackTrampoline W G fuel callback types = some (p, t)) :
    t = s ∨ W.needEmulation callback = false ∧
      t = { s with tramp := s.tramp.addTrampoline callback ⟨none, callback.toNat⟩ } := by
  unfold genCallbackTrampoline at h
  split at h
  · cases h
    exact .inl rfl
  · rename_i hnull
    split at h
    · rename_i hemu
      exact absurd ⟨hemu, hnull⟩ hother
    · rename_i hhost
      cases h
      exact .inr ⟨Bool.eq_false_iff.mpr hhost, rfl⟩

theorem TrampolinesMatch.update {e : Trampoline} (h : s.TrampolinesMatch W)
    (hgen : s.generated ⊆ t.generated)
    (hasked : ∀ other, other ≠ callback → t.asked other = s.asked other)
    (htramp : t.tramp.trampolines = update s.tramp.trampolines callback (some e))
    (hown : W.needEmulation callback → ∃ content entry exit, t.asked callback = some content ∧
      e.made = some (.callback callback entry exit) ∧ t.PairFor content entry exit) :
    t.TrampolinesMatch W := by
  intro other e' he' hemu
  rw [htramp, update_apply] at he'
  split at he'
  · rename_i heq
    cases he'
    subst heq
    exact hown hemu
  · rename_i hne
    obtain ⟨content, entry, exit, hcontent, hmade, hpair⟩ := h other e' he' hemu
    exact ⟨content, entry, exit, (hasked other hne).trans hcontent, hmade, hpair.mono hgen⟩

theorem request_match (hs : s.PairsMatch) (htramp : s.TrampolinesMatch W)
    (h : s.callbackQueryAndAddTrampoline W G fuel callback types = some (p, t)) :
    t.PairsMatch ∧ t.TrampolinesMatch W := by
  unfold callbackQueryAndAddTrampoline at h
  split at h
  · cases h
    exact ⟨hs, htramp⟩
  · by_cases hemu : W.needEmulation callback ∧ callback ≠ 0
    · obtain ⟨hmatch, hgen, hasked, entry, exit, hpair, hset⟩ :=
        genCallbackTrampoline_spec hs hemu.1 hemu.2 h
      refine ⟨hmatch, htramp.update hgen (fun other hne => ?_) hset fun _ => ?_⟩
      · rw [hasked, update_of_ne hne]
      · exact ⟨_, entry, exit, by rw [hasked, update_self], rfl, hpair⟩
    · obtain rfl | ⟨hhost, rfl⟩ := genCallbackTrampoline_other hemu h
      · exact ⟨hs, htramp⟩
      · refine ⟨⟨hs.nameX2a, hs.typesX2a⟩, htramp.update (List.Subset.refl _) (fun _ _ => rfl) rfl ?_⟩
        intro hemu'
        rw [hhost] at hemu'
        cases hemu'

theorem PairsMatch.reuse (hs : s.PairsMatch) {content : String}
    (hkept : s.nameX2a types = none ∧ s.typesX2a types = none ∨ s.string types = content) :
    PairsMatch { s with string := update s.string types content } := by
  have hstring : ∀ {types' pair}, (s.nameX2a types' = some pair ∨ s.typesX2a types' = some pair) →
      update s.string types content types' = s.string types' := by
    intro types' pair hpair
    rw [update_apply]
    split
    · rename_i heq
      subst heq
      obtain ⟨hname, htypes⟩ | hsame := hkept
      · rw [hname, htypes] at hpair
        obtain hpair | hpair := hpair
        · cases hpair
        · cases hpair
      · exact hsame.symm
    · rfl
  constructor
  · intro types' pair hpair
    simp only [hstring (.inl hpair)]
    exact hs.nameX2a hpair
  · intro types' pair hpair
    simp only [hstring (.inr hpair)]
    exact hs.typesX2a hpair

theorem step_match {e : CallbackEvent} (hs : s.PairsMatch ∧ s.TrampolinesMatch W)
    (hkept : s.KeepsTypes e) (h : CallbackStep W G s e t) : t.PairsMatch ∧ t.TrampolinesMatch W := by
  obtain ⟨fuel, h⟩ := h
  cases e with
  | request callback types =>
    obtain ⟨⟨p, u⟩, hu, heq⟩ := map_eq_some_iff.mp h
    cases heq
    exact request_match hs.1 hs.2 hu
  | reuse types content =>
    cases h
    exact ⟨hs.1.reuse hkept, hs.2⟩

theorem matchesTypes_of_match {e : CallbackEvent} (hs : s.PairsMatch ∧ s.TrampolinesMatch W)
    (hkept : s.KeepsTypes e) : s.MatchesTypes W G e := by
  cases e with
  | reuse types content => trivial
  | request callback types =>
    intro hemu hnull fuel p t h
    unfold callbackQueryAndAddTrampoline at h
    split at h
    · rename_i e he
      cases h
      obtain ⟨content, entry, exit, hasked, hmade, hpair⟩ := hs.2 callback e he hemu
      refine ⟨entry, exit, ?_, ?_⟩
      · rw [he, ← hmade]
      · rw [hkept content hasked]
        exact hpair
    · obtain ⟨-, -, -, entry, exit, hpair, hset⟩ := genCallbackTrampoline_spec hs.1 hemu hnull h
      exact ⟨entry, exit, by rw [hset, update_self], hpair⟩

def fresh (T : TrampolineState) (string : BitVec 64 → String) : CallbackState :=
  ⟨T, fun _ => none, fun _ => none, string, [], fun _ => none⟩

end CallbackState

/-- Trampolines match the types asked for in every sequence of requests in which a callback keeps its
types and a string that has a pair keeps its content. -/
theorem callbacks_matchTypes (W : EmulatedProcess) (G : X2aGenerator) (T : TrampolineState)
    (hT : ∀ key, T.trampolines key = none) (string : BitVec 64 → String) (es : List CallbackEvent)
    (hkept : Runs.Along (CallbackState.CallbackStep W G) CallbackState.KeepsTypes
      (.fresh T string) es) :
    Runs.Along (CallbackState.CallbackStep W G) (CallbackState.MatchesTypes W G)
      (.fresh T string) es := by
  have hinv := hkept.invariant (I := fun s => s.PairsMatch ∧ s.TrampolinesMatch W)
    (fun s e t hs he ht => CallbackState.step_match hs he ht)
    ⟨⟨fun h => (nomatch h), fun h => (nomatch h)⟩, fun key e he => by
      simp [CallbackState.fresh, hT] at he⟩
  exact hinv.mono fun s e ⟨hs, he⟩ => CallbackState.matchesTypes_of_match hs he

def exampleGenerator : X2aGenerator := fun _ => some ([.bytes [0xc3]], [.bytes [0xc3]])

/-- Two type strings, at `0x20000` and at `0x21000`. -/
def freshCallbacks : CallbackState :=
  .fresh freshTrampolines fun types => if types = 0x20000 then "v8@0" else "d8@0"

theorem callbacks_matchTypes_twice :
    Runs.Along (CallbackState.CallbackStep exampleProcess exampleGenerator)
      (CallbackState.MatchesTypes exampleProcess exampleGenerator) freshCallbacks
      [.request 0x100004000 0x20000, .request 0x100004000 0x20000] := by
  refine callbacks_matchTypes _ _ _ (fun _ => rfl) _ _ ⟨fun _ h => (by cases h), ?_⟩
  rintro t ⟨fuel, ht⟩
  cases ht
  exact ⟨fun _ h => (by cases h; rfl), fun _ _ => trivial⟩

/-- A callback asked for with other types keeps its first pair, and a string that takes the place of
another gets the other's pair. -/
theorem callbacks_matchTypes_stale :
    ¬ Runs.Along (CallbackState.CallbackStep exampleProcess exampleGenerator)
        (CallbackState.MatchesTypes exampleProcess exampleGenerator) freshCallbacks
        [.request 0x100004000 0x20000, .request 0x100004000 0x21000] ∧
      ¬ Runs.Along (CallbackState.CallbackStep exampleProcess exampleGenerator)
        (CallbackState.MatchesTypes exampleProcess exampleGenerator) freshCallbacks
        [.request 0x100004000 0x20000, .reuse 0x20000 "d8@0", .request 0x100005000 0x20000] := by
  constructor
  · intro h
    obtain ⟨t, ht, hgen, hcontent, p, hp⟩ : ∃ t,
        CallbackState.CallbackStep exampleProcess exampleGenerator freshCallbacks
          (.request 0x100004000 0x20000) t ∧
        t.generated.map GeneratedPair.signature = ["v8@0"] ∧ t.content 0x21000 = some "d8@0" ∧
        ∃ p, t.callbackQueryAndAddTrampoline exampleProcess exampleGenerator 0 0x100004000 0x21000 =
          some (p, t) :=
      ⟨_, ⟨0, rfl⟩, rfl, rfl, _, rfl⟩
    obtain ⟨entry, exit, -, hpair⟩ := (h.2 t ht).1 rfl (by decide) 0 p t hp
    rw [hcontent] at hpair
    have hsig := hpair.signature_mem
    rw [hgen] at hsig
    exact absurd hsig (by decide)
  · intro h
    obtain ⟨t, ht, u, hu, hcontent, p, v, hv, hgen⟩ : ∃ t,
        CallbackState.CallbackStep exampleProcess exampleGenerator freshCallbacks
          (.request 0x100004000 0x20000) t ∧
        ∃ u, CallbackState.CallbackStep exampleProcess exampleGenerator t (.reuse 0x20000 "d8@0") u ∧
        u.content 0x20000 = some "d8@0" ∧
        ∃ p v, u.callbackQueryAndAddTrampoline exampleProcess exampleGenerator 0 0x100005000 0x20000 =
          some (p, v) ∧ v.generated.map GeneratedPair.signature = ["v8@0"] :=
      ⟨_, ⟨0, rfl⟩, _, ⟨0, rfl⟩, rfl, _, _, rfl, rfl⟩
    obtain ⟨entry, exit, -, hpair⟩ := ((h.2 t ht).2 u hu).1 rfl (by decide) 0 p v hv
    rw [hcontent] at hpair
    have hsig := hpair.signature_mem
    rw [hgen] at hsig
    exact absurd hsig (by decide)

end Iqemu64
