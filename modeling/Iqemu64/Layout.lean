import Iqemu64.Signature
import Iqemu64.StepChain

/-!
# Layout of an argument list

`AaPlaced` and `XxPlaced` list the places an argument of a flat type can get from given counters.
`Laid` pairs them for one argument, and the placements of a signature are a chain of it: the counters
never go down, so each argument lies above those before it.
-/

namespace Iqemu64
open StepChain Signature

abbrev aaInRegs (bank : ℕ → AReg) (start n size : ℕ) : ABIArgInfo AReg :=
  { loc := .regs (aaRegs bank start n), size }

abbrev aaOnStack (offset size : ℕ) : ABIArgInfo AReg := { loc := .mem offset .noLocInfo, size }

inductive AaPlaced (t : FlatType) (al : AaAlloc) : ABIArgInfo AReg → AaAlloc → Prop
  | vector {elems width : ℕ} (hv : t.vector = some (elems, width)) (hfit : al.ssecount + elems ≤ 8) :
      AaPlaced t al (aaInRegs .q al.ssecount elems t.size)
        { al with ssecount := al.ssecount + elems }
  | general (hv : t.vector = none) (h16 : t.size ≤ 16) (hfit : al.gprcount + (t.size + 7) / 8 ≤ 8) :
      AaPlaced t al (aaInRegs .x al.gprcount ((t.size + 7) / 8) t.size)
        { al with gprcount := al.gprcount + (t.size + 7) / 8 }
  | pointer (hv : t.vector = none) (h16 : 16 < t.size) (hfit : al.gprcount + 1 ≤ 8) :
      AaPlaced t al { aaInRegs .x al.gprcount 1 t.size with indirect := true }
        { al with gprcount := al.gprcount + 1 }
  | stackVector {elems width : ℕ} (hv : t.vector = some (elems, width)) :
      AaPlaced t al (aaOnStack (al.memOffset t.alignment) t.size)
        { al with ssecount := 8, stackOffset := al.memOffset t.alignment + t.size }
  | stackGeneral (hv : t.vector = none) (h16 : t.size ≤ 16) :
      AaPlaced t al (aaOnStack (al.memOffset t.alignment) t.size)
        { al with gprcount := 8, stackOffset := al.memOffset t.alignment + t.size }
  | stackPointer (hv : t.vector = none) (h16 : 16 < t.size) :
      AaPlaced t al { aaOnStack (al.memOffset t.alignment) t.size with indirect := true }
        { al with gprcount := 8, stackOffset := al.memOffset t.alignment + 8 }

theorem aaPlaced_aaPlace (t : FlatType) (al : AaAlloc) :
    AaPlaced t al (t.aaPlace al).1 (t.aaPlace al).2 := by
  unfold FlatType.aaPlace
  cases hv : t.vector with
  | some v =>
    obtain ⟨elems, width⟩ := v
    by_cases hfit : al.ssecount + elems ≤ 8
    · simp only [AaAlloc.passInVector, if_pos hfit]
      exact .vector hv hfit
    · simp only [AaAlloc.passInVector, if_neg hfit]
      exact .stackVector hv
  | none =>
    by_cases h16 : t.size > 16
    · simp only [if_pos h16, AaAlloc.passInGpr]
      by_cases hfit : al.gprcount + 1 ≤ 8
      · simp only [if_pos hfit]
        exact .pointer hv h16 hfit
      · simp only [if_neg hfit]
        exact .stackPointer hv h16
    · simp only [if_neg h16, AaAlloc.passInGpr]
      by_cases hfit : al.gprcount + (t.size + 7) / 8 ≤ 8
      · simp only [if_pos hfit]
        exact .general hv (by omega) hfit
      · simp only [if_neg hfit]
        exact .stackGeneral hv (by omega)

namespace FlatType

variable (t : FlatType) (xl : XxAlloc)

abbrev xxInRegs : ABIArgInfo XReg :=
  { loc := .regs (xxPieces t.locInfo t.classes xl.gprcount xl.ssecount), size := t.size }

abbrev xxAfterRegs : XxAlloc :=
  { xl with
    gprcount := xl.gprcount + t.classes.countP RegClass.isGpr
    ssecount := xl.ssecount + t.classes.countP RegClass.isSse }

abbrev xxOnStack : ABIArgInfo XReg :=
  { loc := .mem (ffiAlign xl.bytes 8) t.locInfo, size := t.size }

abbrev xxAfterStack : XxAlloc := { xl with bytes := ffiAlign xl.bytes 8 + t.size }

structure XxFits : Prop where
  size : t.size ≤ 16
  gpr : xl.gprcount + t.classes.countP RegClass.isGpr ≤ 6
  sse : xl.ssecount + t.classes.countP RegClass.isSse ≤ 8

end FlatType

inductive XxPlaced (t : FlatType) (xl : XxAlloc) : ABIArgInfo XReg → XxAlloc → Prop
  | regs (hfits : t.XxFits xl) : XxPlaced t xl (t.xxInRegs xl) (t.xxAfterRegs xl)
  | stack : XxPlaced t xl (t.xxOnStack xl) (t.xxAfterStack xl)

theorem xxPlaced_xxPlace (t : FlatType) (xl : XxAlloc) :
    XxPlaced t xl (t.xxPlace xl).1 (t.xxPlace xl).2 := by
  unfold FlatType.xxPlace
  by_cases hmem : t.XxInMemory xl
  · simp only [if_pos hmem]
    exact .stack
  · simp only [if_neg hmem]
    simp only [FlatType.XxInMemory, not_or, not_lt] at hmem
    refine .regs ⟨?_, by omega, by omega⟩
    by_contra h16
    have hlen := t.classes_length
    rw [FlatType.wordCount, if_neg h16] at hlen
    exact hmem.1 (List.length_eq_zero_iff.mp hlen)

abbrev Counters : Type := AaAlloc × XxAlloc

abbrev Placement : Type := ABIArgInfo AReg × ABIArgInfo XReg

structure Counters.InRange (c : Counters) : Prop where
  aaGpr : c.1.gprcount ≤ 8
  aaSse : c.1.ssecount ≤ 8
  xxGpr : c.2.gprcount ≤ 6
  xxSse : c.2.ssecount ≤ 8

structure Laid (Q : FlatType → Prop) (aaBytes xxBytes : ℕ) (c : Counters) (p : Placement)
    (c' : Counters) : Prop where
  place : ∃ t al, Q t ∧ AaPlaced t c.1 p.1 al ∧ XxPlaced t c.2 p.2 c'.2 ∧
    (c'.1 = al ∨ c'.1 = al.enterVariadic)
  inRange : c.InRange
  aaFits : c'.1.stackOffset ≤ aaBytes
  xxFits : c'.2.bytes ≤ xxBytes

theorem memOffset_ge (al : AaAlloc) (t : FlatType) : al.stackOffset ≤ al.memOffset t.alignment := by
  unfold AaAlloc.memOffset
  split_ifs
  · exact (ffiAlign_spec _ (Or.inr (Or.inr (Or.inr rfl)))).1
  · exact (ffiAlign_spec _ t.alignment_isAlignment).1

theorem ffiAlign_eight_ge (v : ℕ) : v ≤ ffiAlign v 8 :=
  (ffiAlign_spec v (Or.inr (Or.inr (Or.inr rfl)))).1

section Monotone
variable {t : FlatType} {al al' : AaAlloc} {a : ABIArgInfo AReg} {xl xl' : XxAlloc}
  {x : ABIArgInfo XReg}

theorem AaPlaced.size_eq (h : AaPlaced t al a al') : a.size = t.size := by cases h <;> rfl

theorem XxPlaced.size_eq (h : XxPlaced t xl x xl') : x.size = t.size := by cases h <;> rfl

theorem AaPlaced.le (h : AaPlaced t al a al') (hg : al.gprcount ≤ 8) (hs : al.ssecount ≤ 8) :
    al.gprcount ≤ al'.gprcount ∧ al.ssecount ≤ al'.ssecount ∧ al.stackOffset ≤ al'.stackOffset ∧
      al'.gprcount ≤ 8 ∧ al'.ssecount ≤ 8 := by
  have hoff := memOffset_ge al t
  cases h <;> simp only [] <;> omega

theorem XxPlaced.le (h : XxPlaced t xl x xl') (hg : xl.gprcount ≤ 6) (hs : xl.ssecount ≤ 8) :
    xl.gprcount ≤ xl'.gprcount ∧ xl.ssecount ≤ xl'.ssecount ∧ xl.bytes ≤ xl'.bytes ∧
      xl'.gprcount ≤ 6 ∧ xl'.ssecount ≤ 8 := by
  have hb := ffiAlign_eight_ge xl.bytes
  cases h with
  | regs hfits =>
    have := hfits.gpr
    have := hfits.sse
    simp only
    omega
  | stack =>
    simp only
    omega

end Monotone

theorem aaNext_le (t : FlatType) (nfixed i : ℕ) (al : AaAlloc) (hg : al.gprcount ≤ 8)
    (hs : al.ssecount ≤ 8) : (t.aaNext nfixed i al).gprcount ≤ 8 ∧
      (t.aaNext nfixed i al).ssecount ≤ 8 ∧
      al.stackOffset ≤ (t.aaNext nfixed i al).stackOffset := by
  have h := (aaPlaced_aaPlace t al).le hg hs
  unfold FlatType.aaNext
  split_ifs
  · exact ⟨le_rfl, le_rfl, h.2.2.1⟩
  · exact ⟨h.2.2.2.1, h.2.2.2.2, h.2.2.1⟩

theorem aaFinal_ge (nfixed : ℕ) (ts : List FlatType) (i : ℕ) (al : AaAlloc) (hg : al.gprcount ≤ 8)
    (hs : al.ssecount ≤ 8) : al.stackOffset ≤ (aaFinal nfixed ts i al).stackOffset := by
  induction ts generalizing i al with
  | nil => exact le_rfl
  | cons t ts ih =>
    obtain ⟨hg', hs', hle⟩ := aaNext_le t nfixed i al hg hs
    exact hle.trans (ih (i + 1) _ hg' hs')

theorem xxFinal_ge (ts : List FlatType) (xl : XxAlloc) (hg : xl.gprcount ≤ 6)
    (hs : xl.ssecount ≤ 8) : xl.bytes ≤ (xxFinal ts xl).bytes := by
  induction ts generalizing xl with
  | nil => exact le_rfl
  | cons t ts ih =>
    obtain ⟨-, -, hle, hg', hs'⟩ := (xxPlaced_xxPlace t xl).le hg hs
    exact hle.trans (ih _ hg' hs')

variable {Q : FlatType → Prop} {aaBytes xxBytes : ℕ} {c c' : Counters} {p : Placement}

theorem Laid.mono
    (h : Laid Q aaBytes xxBytes c p c') :
    c.1.gprcount ≤ c'.1.gprcount ∧ c.1.ssecount ≤ c'.1.ssecount ∧
      c.1.stackOffset ≤ c'.1.stackOffset ∧ c.2.gprcount ≤ c'.2.gprcount ∧
      c.2.ssecount ≤ c'.2.ssecount ∧ c.2.bytes ≤ c'.2.bytes := by
  obtain ⟨t, al, -, ha, hx, hal⟩ := h.place
  have hxl := hx.le h.inRange.xxGpr h.inRange.xxSse
  have haa := ha.le h.inRange.aaGpr h.inRange.aaSse
  rcases hal with hal | hal
  · rw [hal]
    exact ⟨haa.1, haa.2.1, haa.2.2.1, hxl.1, hxl.2.1, hxl.2.2.1⟩
  · rw [hal]
    exact ⟨h.inRange.aaGpr, h.inRange.aaSse, haa.2.2.1, hxl.1, hxl.2.1, hxl.2.2.1⟩

theorem Laid.inRange_after (h : Laid Q aaBytes xxBytes c p c') : c'.InRange := by
  obtain ⟨t, al, -, ha, hx, hal⟩ := h.place
  have hxl := hx.le h.inRange.xxGpr h.inRange.xxSse
  have haa := ha.le h.inRange.aaGpr h.inRange.aaSse
  rcases hal with hal | hal
  · exact ⟨by rw [hal]; exact haa.2.2.2.1, by rw [hal]; exact haa.2.2.2.2, hxl.2.2.2.1, hxl.2.2.2.2⟩
  · exact ⟨by rw [hal]; exact le_rfl, by rw [hal]; exact le_rfl, hxl.2.2.2.1, hxl.2.2.2.2⟩

theorem chain_inRange
    {ps : List Placement} (h : Chain (Laid Q aaBytes xxBytes) c ps c') (hc : c.InRange) :
    c'.InRange := by
  induction h with
  | nil c => exact hc
  | cons head tail ih => exact ih head.inRange_after

variable {i : ℕ}

theorem laid_place {nfixed : ℕ} {t : FlatType}
    {al : AaAlloc} {xl : XxAlloc} (hQ : Q t) (hc : Counters.InRange (al, xl))
    (haa : (t.aaNext nfixed i al).stackOffset ≤ aaBytes) (hxx : (t.xxPlace xl).2.bytes ≤ xxBytes) :
    Laid Q aaBytes xxBytes (al, xl) ((t.aaPlace al).1, (t.xxPlace xl).1)
      (t.aaNext nfixed i al, (t.xxPlace xl).2) := by
  refine ⟨⟨t, (t.aaPlace al).2, hQ, aaPlaced_aaPlace t al, xxPlaced_xxPlace t xl, ?_⟩, hc, haa, hxx⟩
  unfold FlatType.aaNext
  split_ifs
  · exact Or.inr rfl
  · exact Or.inl rfl

/-- The placements of an argument list are a chain from the initial counters. -/
theorem chain_placements {nfixed : ℕ} {ts : List FlatType}
    {al : AaAlloc} {xl : XxAlloc} (hQ : ∀ t ∈ ts, Q t) (hc : Counters.InRange (al, xl))
    (haa : (aaFinal nfixed ts i al).stackOffset ≤ aaBytes) (hxx : (xxFinal ts xl).bytes ≤ xxBytes) :
    Chain (Laid Q aaBytes xxBytes) (al, xl) (placements nfixed ts i al xl)
      (aaFinal nfixed ts i al, xxFinal ts xl) := by
  induction ts generalizing i al xl with
  | nil => exact .nil _
  | cons t ts ih =>
    obtain ⟨hg, hs, -⟩ := aaNext_le t nfixed i al hc.aaGpr hc.aaSse
    obtain ⟨-, -, -, hg', hs'⟩ := (xxPlaced_xxPlace t xl).le hc.xxGpr hc.xxSse
    have hnext : Counters.InRange (t.aaNext nfixed i al, (t.xxPlace xl).2) := ⟨hg, hs, hg', hs'⟩
    exact .cons (laid_place (hQ t List.mem_cons_self) hc
      ((aaFinal_ge nfixed ts (i + 1) _ hg hs).trans haa) ((xxFinal_ge ts _ hg' hs').trans hxx))
      (ih (List.forall_mem_cons.mp hQ).2 hnext haa hxx)

theorem Signature.start_inRange (σ : Signature) : Counters.InRange ({}, σ.xxStart) := by
  refine ⟨Nat.zero_le 8, Nat.zero_le 8, ?_, Nat.zero_le 8⟩
  simp only [xxStart]
  split_ifs <;> omega

theorem Signature.chain (σ : Signature) (hQ : ∀ t ∈ σ.args, Q t)
    (hxx : σ.xxInfo.bytes ≤ xxBytes) :
    Chain (Laid Q σ.aaInfo.bytes xxBytes) ({}, σ.xxStart) σ.places
      (aaFinal σ.nfixed σ.args 0 {}, xxFinal σ.args σ.xxStart) :=
  chain_placements hQ σ.start_inRange le_rfl ((ffiAlign_eight_ge _).trans hxx)

section Split
variable {σ : Signature} {ts us : List FlatType} {t : FlatType}

def Signature.countersAt (σ : Signature) (ts : List FlatType) : Counters :=
  (aaFinal σ.nfixed ts 0 {}, xxFinal ts σ.xxStart)

def Signature.countersAfter (σ : Signature) (ts : List FlatType) (t : FlatType) : Counters :=
  (t.aaNext σ.nfixed ts.length (σ.countersAt ts).1, (t.xxPlace (σ.countersAt ts).2).2)

def Signature.placeAt (σ : Signature) (ts : List FlatType) (t : FlatType) : Placement :=
  ((t.aaPlace (σ.countersAt ts).1).1, (t.xxPlace (σ.countersAt ts).2).1)

theorem Signature.places_split (hargs : σ.args = ts ++ t :: us) :
    σ.places = placements σ.nfixed ts 0 {} σ.xxStart ++ σ.placeAt ts t ::
      placements σ.nfixed us (ts.length + 1) (σ.countersAfter ts t).1 (σ.countersAfter ts t).2 := by
  rw [places, hargs, placements_append, placements, Nat.zero_add]
  rfl

theorem Signature.getElem?_places (hargs : σ.args = ts ++ t :: us) :
    σ.places[ts.length]? = some (σ.placeAt ts t) := by
  rw [places_split hargs, List.getElem?_append_right (by rw [placements_length]),
    placements_length, Nat.sub_self]
  rfl

theorem Signature.chain_split {Q : FlatType → Prop} (hargs : σ.args = ts ++ t :: us)
    (hQ : ∀ t ∈ σ.args, Q t) :
    ∃ c', Chain (Laid Q σ.aaInfo.bytes σ.xxInfo.bytes) ({}, σ.xxStart)
        (placements σ.nfixed ts 0 {} σ.xxStart) (σ.countersAt ts) ∧
      Laid Q σ.aaInfo.bytes σ.xxInfo.bytes (σ.countersAt ts) (σ.placeAt ts t) (σ.countersAfter ts t) ∧
      Chain (Laid Q σ.aaInfo.bytes σ.xxInfo.bytes) (σ.countersAfter ts t)
        (placements σ.nfixed us (ts.length + 1) (σ.countersAfter ts t).1 (σ.countersAfter ts t).2) c' := by
  rw [hargs] at hQ
  have hrange : (σ.countersAt ts).InRange := chain_inRange (Q := fun _ => True)
    (chain_placements (fun _ _ => trivial) σ.start_inRange le_rfl le_rfl) σ.start_inRange
  have hQt : Q t := hQ t (by simp)
  have hnext : (σ.countersAfter ts t).InRange :=
    (laid_place (Q := fun _ => True) trivial hrange le_rfl le_rfl).inRange_after
  -- the counters only grow up to the sizes of the two stack areas
  have haa : (aaFinal σ.nfixed us (ts.length + 1) (σ.countersAfter ts t).1).stackOffset =
      σ.aaInfo.bytes := by
    change _ = (aaFinal σ.nfixed σ.args 0 {}).stackOffset
    rw [hargs, aaFinal_append, Nat.zero_add]
    rfl
  have hxx : (xxFinal us (σ.countersAfter ts t).2).bytes ≤ σ.xxInfo.bytes := by
    change _ ≤ ffiAlign (xxFinal σ.args σ.xxStart).bytes 8
    rw [hargs, xxFinal_append]
    exact ffiAlign_eight_ge _
  have haa' := (aaFinal_ge σ.nfixed us (ts.length + 1) _ hnext.aaGpr hnext.aaSse).trans haa.le
  have hxx' := (xxFinal_ge us _ hnext.xxGpr hnext.xxSse).trans hxx
  have hlaid : Laid Q σ.aaInfo.bytes σ.xxInfo.bytes (σ.countersAt ts) (σ.placeAt ts t)
      (σ.countersAfter ts t) := laid_place hQt hrange haa' hxx'
  refine ⟨_, chain_placements (fun u hu => hQ u (by simp [hu])) σ.start_inRange ?_ ?_, hlaid,
    chain_placements (fun u hu => hQ u (by simp [hu])) hnext haa.le hxx⟩
  · exact hlaid.mono.2.2.1.trans haa'
  · exact hlaid.mono.2.2.2.2.2.trans hxx'

end Split

theorem Signature.laid_of_mem (σ : Signature) (hp : p ∈ σ.places) :
    ∃ c c', Laid (fun _ => True) σ.aaInfo.bytes σ.xxInfo.bytes c p c' :=
  (σ.chain (fun _ _ => trivial) le_rfl).exists_of_mem hp

theorem Signature.mem_places (σ : Signature) {a : ABIArgInfo AReg} {x : ABIArgInfo XReg}
    (ha : σ.aaInfo.ainfo[i]? = some a) (hx : σ.xxInfo.ainfo[i]? = some x) : (a, x) ∈ σ.places := by
  simp only [aaInfo, xxInfo, List.getElem?_map, Option.map_eq_some_iff] at ha hx
  obtain ⟨p, hp, rfl⟩ := ha
  obtain ⟨q, hq, rfl⟩ := hx
  obtain rfl := Option.some.inj (hp.symm.trans hq)
  exact List.mem_of_getElem? hp

theorem Signature.forall_places (σ : Signature) {Q : ABIArgInfo AReg → ABIArgInfo XReg → Prop} :
    (∀ (i : ℕ) a x, σ.aaInfo.ainfo[i]? = some a → σ.xxInfo.ainfo[i]? = some x → Q a x) ↔
      ∀ p ∈ σ.places, Q p.1 p.2 := by
  constructor
  · intro h p hp
    obtain ⟨i, hi⟩ := List.mem_iff_getElem?.mp hp
    apply h i
    · simp [aaInfo, hi]
    · simp [xxInfo, hi]
  · intro h i a x ha hx
    exact h (a, x) (σ.mem_places ha hx)

def ABIArgInfo.stackExtent (a : ABIArgInfo AReg) : ℕ := if a.indirect then 8 else a.size

/-- Stack arguments end before the counters that follow them, and start after those before. -/
theorem Laid.stack
    (h : Laid Q aaBytes xxBytes c p c') {offset : ℕ} {info : LocInfo}
    (hp : p.1.loc = .mem offset info) :
    c.1.stackOffset ≤ offset ∧ offset + p.1.stackExtent ≤ c'.1.stackOffset := by
  obtain ⟨t, al, -, ha, -, hal⟩ := h.place
  have hoff := memOffset_ge c.1 t
  have hsame : c'.1.stackOffset = al.stackOffset := by
    rcases hal with hal | hal <;> rw [hal]
    rfl
  rw [hsame]
  obtain ⟨a, x⟩ := p
  simp only at ha hp ⊢
  cases ha with
  | vector | general | pointer => cases hp
  | stackVector | stackGeneral | stackPointer =>
    obtain ⟨rfl, -⟩ := ArgLoc.mem.inj hp
    exact ⟨hoff, le_rfl⟩

def StackDisjoint (p q : Placement) : Prop :=
  ∀ o i o' i', p.1.loc = .mem o i → q.1.loc = .mem o' i' →
    o + p.1.stackExtent ≤ o' ∨ o' + q.1.stackExtent ≤ o

instance : Std.Symm StackDisjoint where
  symm _ _ h o i o' i' ho ho' := (h o' i' o i ho' ho).symm

theorem Signature.stack_disjoint (σ : Signature) {q : Placement} (hp : p ∈ σ.places)
    (hq : q ∈ σ.places) (hne : p ≠ q) : StackDisjoint p q := by
  have hpair : σ.places.Pairwise StackDisjoint := by
    refine Chain.pairwise (fun (c : Counters) (q : Placement) => ∀ o i, q.1.loc = .mem o i →
      o + q.1.stackExtent ≤ c.1.stackOffset) ?_ ?_ ?_
      (σ.chain (Q := fun _ => True) (fun _ _ => trivial) le_rfl)
    · intro c p c₁ hlay o i ho
      exact (hlay.stack ho).2
    · intro c p c₁ q hlay hq o i ho
      exact (hq o i ho).trans hlay.mono.2.2.1
    · intro c p c₁ q hlay hq o i o' i' ho ho'
      exact Or.inl ((hq o i ho).trans (hlay.stack ho').1)
  exact hpair.forall hp hq hne

end Iqemu64
