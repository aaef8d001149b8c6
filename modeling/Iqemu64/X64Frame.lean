import Iqemu64.X64

/-!
# What straight-line code leaves alone

`rspShift` reads off a program how far it moves the stack pointer. `Insn.Avoids` says of an instruction
that it keeps certain registers and stores only through them, and not to certain addresses; a program
of such instructions keeps both.
-/

namespace X64
open ByteMemory

variable {F S : Type}

def Insn.rspShift : Insn F S → Option ℤ
  | .push _ => some (-8)
  | .pop r => if r = .rsp then none else some 8
  | .addi r v => some (if r = .rsp then v else 0)
  | .ld r _ _ | .ld32 r _ _ | .mov r _ | .movq r _ | .movi r _ | .movSym r _ | .shr32 r _
  | .movx _ _ r => if r = .rsp then none else some 0
  | _ => some 0

def rspShift : List (Insn F S) → Option ℤ
  | [] => some 0
  | i :: code => i.rspShift.bind fun d => (rspShift code).map (d + ·)

@[simp] theorem rspShift_nil : rspShift ([] : List (Insn F S)) = some 0 := rfl

@[simp] theorem rspShift_cons (i : Insn F S) (code : List (Insn F S)) :
    rspShift (i :: code) = i.rspShift.bind fun d => (rspShift code).map (d + ·) := rfl

theorem rspShift_append {c₁ c₂ : List (Insn F S)} {d₁ d₂ : ℤ} (h₁ : rspShift c₁ = some d₁)
    (h₂ : rspShift c₂ = some d₂) : rspShift (c₁ ++ c₂) = some (d₁ + d₂) := by
  induction c₁ generalizing d₁ with
  | nil =>
    cases h₁
    simpa using h₂
  | cons i code ih =>
    simp only [rspShift_cons, Option.bind_eq_some_iff, Option.map_eq_some_iff] at h₁
    obtain ⟨d, hi, e, hcode, rfl⟩ := h₁
    simp [hi, ih hcode, add_assoc]

theorem rspShift_cons_zero {i : Insn F S} {code : List (Insn F S)} (hi : i.rspShift = some 0)
    (h : rspShift code = some 0) : rspShift (i :: code) = some 0 := by
  simp [hi, h]

theorem rspShift_append_zero {c₁ c₂ : List (Insn F S)} (h₁ : rspShift c₁ = some 0)
    (h₂ : rspShift c₂ = some 0) : rspShift (c₁ ++ c₂) = some 0 := by
  simpa using rspShift_append h₁ h₂

theorem rspShift_flatten {cs : List (List (Insn F S))} (h : ∀ c ∈ cs, rspShift c = some 0) :
    rspShift cs.flatten = some 0 := by
  induction cs with
  | nil => rfl
  | cons c cs ih =>
    have hrest := ih fun c' hc' => h c' (List.mem_cons_of_mem c hc')
    exact rspShift_append_zero (h c List.mem_cons_self) hrest

theorem rspShift_flatMap {α : Type} {f : α → List (Insn F S)} {l : List α}
    (h : ∀ x ∈ l, rspShift (f x) = some 0) : rspShift (l.flatMap f) = some 0 :=
  rspShift_flatten fun c hc => by
    obtain ⟨x, hx, rfl⟩ := List.mem_map.mp hc
    exact h x hx

theorem rspShift_mapM {α : Type} {f : α → Option (List (Insn F S))} {l : List α}
    {cs : List (List (Insn F S))} (hcs : l.mapM f = some cs)
    (h : ∀ x c, f x = some c → rspShift c = some 0) : rspShift cs.flatten = some 0 := by
  induction l generalizing cs with
  | nil =>
    cases hcs
    rfl
  | cons x l ih =>
    rw [List.mapM_cons] at hcs
    obtain ⟨c, hc, hcs⟩ := Option.bind_eq_some_iff.mp hcs
    obtain ⟨rest, hrest, hcs⟩ := Option.bind_eq_some_iff.mp hcs
    cases hcs
    exact rspShift_append_zero (h x c hc) (ih hrest)

section Run
variable {E : Externals F S}

theorem Insn.step_rsp (hE : ∀ f s, (E.ext f s).gpr .rsp = s.gpr .rsp) {i : Insn F S} {d : ℤ}
    (hi : i.rspShift = some d) {s t : State} (hstep : i.step E s = some t) :
    t.gpr .rsp = s.gpr .rsp + BitVec.ofInt 64 d := by
  cases i
  case call f =>
    cases hstep
    cases hi
    simpa using hE f s
  case movapsLd | movapsSt =>
    simp only [step, Option.ite_none_right_eq_some] at hstep
    obtain rfl := Option.some.inj hstep.2
    cases hi
    simp
  case push r =>
    cases hstep
    cases hi
    exact (State.setGpr_gpr_same _ _ _).trans (BitVec.sub_eq_add_neg _ _)
  case pop r =>
    cases hstep
    simp only [rspShift, Option.ite_none_left_eq_some] at hi
    obtain ⟨hr, hd⟩ := hi
    cases hd
    simp [Ne.symm hr]
  case addi r v =>
    cases hstep
    cases hi
    by_cases hr : r = .rsp
    · simp [hr]
    · simp [hr, Ne.symm hr]
  case ld r _ _ | ld32 r _ _ | mov r _ | movq r _ | movi r _ | movSym r _ | shr32 r _ | movx _ _ r =>
    cases hstep
    simp only [rspShift, Option.ite_none_left_eq_some] at hi
    obtain ⟨hr, hd⟩ := hi
    cases hd
    simp [Ne.symm hr]
  all_goals
    cases hstep
    cases hi
    simp

/-- A program moves the stack pointer as `rspShift` says, if the functions it calls keep it. -/
theorem run_rsp (hE : ∀ f s, (E.ext f s).gpr .rsp = s.gpr .rsp) {code : List (Insn F S)} {d : ℤ}
    (hd : rspShift code = some d) {s t : State} (hrun : run E code s = some t) :
    t.gpr .rsp = s.gpr .rsp + BitVec.ofInt 64 d := by
  induction code generalizing s d with
  | nil =>
    cases hd
    cases hrun
    simp
  | cons i code ih =>
    simp only [rspShift_cons, Option.bind_eq_some_iff, Option.map_eq_some_iff] at hd
    obtain ⟨d₁, hi, d₂, hcode, rfl⟩ := hd
    obtain ⟨u, hu, ht⟩ := Option.bind_eq_some_iff.mp ((run_cons E i code s).symm.trans hrun)
    rw [ih hcode ht, Insn.step_rsp hE hi hu, BitVec.ofInt_add, BitVec.add_assoc]

end Run

def Insn.Avoids (v : Gpr → BitVec 64) (K : List Gpr) (P : ℕ → Prop) : Insn F S → Prop
  | .ld r _ _ | .ld32 r _ _ | .mov r _ | .movq r _ | .movi r _ | .movSym r _ | .addi r _ | .shr32 r _
  | .movx _ _ r => r ∉ K
  | .movqTo _ _ | .movqLd _ _ _ | .movapsLd _ _ _ => True
  | .st _ base ofs => base ∈ K ∧ ∀ k < 8, ¬ P ((v base).toNat + ofs + k)
  | .st32 _ base ofs => base ∈ K ∧ ∀ k < 4, ¬ P ((v base).toNat + ofs + k)
  | .movapsSt _ base ofs => base ∈ K ∧ ∀ k < 16, ¬ P ((v base).toNat + ofs + k)
  | .push _ | .pop _ | .repMovsb | .call _ => False

structure Kept (v : Gpr → BitVec 64) (K : List Gpr) (P : ℕ → Prop) (m : Mem) (t : State) : Prop where
  gpr : ∀ r ∈ K, t.gpr r = v r
  mem : ∀ a, P a → t.mem a = m a

section Kept
variable {E : Externals F S} {v : Gpr → BitVec 64} {K : List Gpr} {P : ℕ → Prop} {m : Mem}

theorem Kept.refl (s : State) (K : List Gpr) (P : ℕ → Prop) : Kept s.gpr K P s.mem s :=
  ⟨fun _ _ => rfl, fun _ _ => rfl⟩

theorem Kept.trans {s t u : State} (h : Kept s.gpr K P s.mem t) (h' : Kept t.gpr K P t.mem u) :
    Kept s.gpr K P s.mem u :=
  ⟨fun r hr => (h'.gpr r hr).trans (h.gpr r hr), fun a ha => (h'.mem a ha).trans (h.mem a ha)⟩

theorem Kept.setGpr {s : State} (h : Kept v K P m s) {r : Gpr} (hr : r ∉ K) (w : BitVec 64) :
    Kept v K P m (s.setGpr r w) := by
  refine ⟨fun q hq => ?_, h.mem⟩
  have hne : q ≠ r := fun heq => hr (heq ▸ hq)
  exact (State.setGpr_gpr_ne s w hne).trans (h.gpr q hq)

theorem Kept.setMem {s : State} (h : Kept v K P m s) {m' : Mem} (hm : ∀ a, P a → m' a = s.mem a) :
    Kept v K P m (s.setMem m') :=
  ⟨h.gpr, fun a ha => (hm a ha).trans (h.mem a ha)⟩

theorem write_avoids {m : Mem} {dst n : ℕ} {f : ℕ → UInt8} (h : ∀ k < n, ¬ P (dst + k)) :
    ∀ a, P a → m.write dst n f a = m a := by
  intro a ha
  apply Mem.write_outside
  by_contra hin
  obtain ⟨k, rfl⟩ := Nat.exists_eq_add_of_le (show dst ≤ a by omega)
  exact h k (by omega) ha

theorem Insn.step_kept {i : Insn F S} (hi : i.Avoids v K P) {s t : State} (h : Kept v K P m s)
    (hstep : i.step E s = some t) : Kept v K P m t := by
  cases i
  case ld | ld32 | mov | movq | movi | movSym | addi | shr32 | movx =>
    cases hstep
    exact h.setGpr hi _
  case movqTo | movqLd =>
    cases hstep
    exact ⟨h.gpr, h.mem⟩
  case movapsLd =>
    simp only [step, Option.ite_none_right_eq_some] at hstep
    obtain rfl := Option.some.inj hstep.2
    exact ⟨h.gpr, h.mem⟩
  case movapsSt arg base ofs =>
    simp only [step, Option.ite_none_right_eq_some] at hstep
    obtain rfl := Option.some.inj hstep.2
    refine h.setMem (write_avoids fun k hk => ?_)
    rw [State.ea, h.gpr base hi.1]
    exact hi.2 k hk
  case st arg base ofs | st32 arg base ofs =>
    cases hstep
    refine h.setMem (write_avoids fun k hk => ?_)
    rw [State.ea, h.gpr base hi.1]
    exact hi.2 k hk
  case push | pop | repMovsb | call => exact hi.elim

theorem run_kept {code : List (Insn F S)} (hcode : ∀ i ∈ code, i.Avoids v K P) {s t : State}
    (h : Kept v K P m s) (hrun : run E code s = some t) : Kept v K P m t := by
  induction code generalizing s with
  | nil =>
    cases hrun
    exact h
  | cons i code ih =>
    obtain ⟨u, hu, ht⟩ := Option.bind_eq_some_iff.mp ((run_cons E i code s).symm.trans hrun)
    exact ih (List.forall_mem_cons.mp hcode).2
      (Insn.step_kept (hcode i List.mem_cons_self) h hu) ht

end Kept

section Saved
variable {E : Externals F S}

def State.pushed (s : State) (r : Gpr) : State :=
  (s.setMem (s.mem.storeWord (s.gpr .rsp - 8).toNat 8 (s.gpr r).toNat)).setGpr .rsp (s.gpr .rsp - 8)

/-- Code between a push and a pop of the same register, if it keeps the stack pointer and the pushed
word: the register comes back. -/
theorem run_saved {r : Gpr} {body : List (Insn F S)} {s u : State}
    (hbody : run E body (s.pushed r) = some u) (hrsp : u.gpr .rsp = s.gpr .rsp - 8)
    (hmem : ∀ k < 8, u.mem ((s.gpr .rsp - 8).toNat + k) = (s.pushed r).mem ((s.gpr .rsp - 8).toNat + k)) :
    run E (.push r :: (body ++ [.pop r])) s = some ((u.setGpr .rsp (s.gpr .rsp)).setGpr r (s.gpr r)) := by
  have hword : BitVec.ofNat 64 (u.mem.loadWord (u.gpr .rsp).toNat 8) = s.gpr r := by
    rw [hrsp, Mem.loadWord_congr _ _ _ _ hmem]
    change BitVec.ofNat 64 ((s.mem.storeWord _ 8 (s.gpr r).toNat).loadWord _ 8) = _
    have hlt : (s.gpr r).toNat < 256 ^ 8 := (s.gpr r).isLt
    rw [Mem.loadWord_storeWord, Nat.mod_eq_of_lt hlt, BitVec.ofNat_toNat, BitVec.setWidth_eq]
  change run E (body ++ [.pop r]) (s.pushed r) = _
  rw [run_append_some E hbody]
  change some ((u.setGpr .rsp (u.gpr .rsp + 8)).setGpr r _) = _
  rw [hword, hrsp, BitVec.sub_add_cancel]

end Saved

end X64
