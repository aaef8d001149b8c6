import Iqemu64.A2xArg

/-!
# Call sites of the guest-to-host code

`A2xSite` is where the CPU state, the guest stack and the host stack lie while the arguments are
translated, with nothing overlapping. `A2xInv` is what holds between two arguments: the code has
changed only its own stack frame and the second words of vector registers it is done with.
-/

namespace Iqemu64
open ByteMemory X64

def A2xFrame (rsp frame a : ℕ) : Prop := rsp ≤ a + 24 ∧ a < rsp + frame + 16

structure A2xSite (L : EnvLayout) where
  env : ℕ
  sp : ℕ
  rsp : ℕ
  frame : ℕ
  aaBytes : ℕ
  env_aligned : env % 16 = 0
  sp_aligned : sp % 16 = 0
  room : 24 ≤ rsp
  top : rsp + frame < 2 ^ 64
  sp_top : sp + aaBytes < 2 ^ 64
  state_apart : ∀ o < L.size, ¬ A2xFrame rsp frame (env + o)
  stack_apart : ∀ o < aaBytes, ¬ A2xFrame rsp frame (sp + o) ∧
    ¬ (env ≤ sp + o ∧ sp + o < env + L.size)

variable {L : EnvLayout}

namespace A2xSite

variable (S : A2xSite L)

def Frame (a : ℕ) : Prop := A2xFrame S.rsp S.frame a

def CpuState (a : ℕ) : Prop := S.env ≤ a ∧ a < S.env + L.size

def Upper (n a : ℕ) : Prop :=
  ∃ v < n, S.env + L.zregs + 256 * v + 4 ≤ a ∧ a < S.env + L.zregs + 256 * v + 8

def Pointee (m : Mem) (a : ABIArgInfo AReg) : Prop :=
  a.indirect = true → ∀ k < a.size,
    ¬ S.Frame (a.guestAddr L S.env S.sp m k) ∧ ¬ S.CpuState (a.guestAddr L S.env S.sp m k)

theorem Upper.mono {S : A2xSite L} {n n' a : ℕ} (h : S.Upper n a) (hle : n ≤ n') : S.Upper n' a := by
  obtain ⟨v, hv, hlo, hhi⟩ := h
  exact ⟨v, by omega, hlo, hhi⟩

theorem Upper.state {S : A2xSite L} {n a : ℕ} (h : S.Upper n a) (hn : n ≤ 8) : S.CpuState a := by
  obtain ⟨v, hv, hlo, hhi⟩ := h
  unfold CpuState EnvLayout.size
  omega

end A2xSite

structure A2xInv (S : A2xSite L) (m₀ : Mem) (c : Counters) (s : State) : Prop where
  rbx : (s.gpr .rbx).toNat = S.env
  rsp : (s.gpr .rsp).toNat = S.rsp
  sp : m₀.loadWord (S.env + spOffset) 8 = S.sp
  mem : ∀ a, ¬ S.Frame a → ¬ S.Upper c.1.ssecount a → s.mem a = m₀ a

namespace A2xInv

variable {S : A2xSite L} {m₀ : Mem} {c c' : Counters} {s s' : State}

theorem next (h : A2xInv S m₀ c s) (hle : c.1.ssecount ≤ c'.1.ssecount)
    (hrbx : s'.gpr .rbx = s.gpr .rbx) (hrsp : s'.gpr .rsp = s.gpr .rsp)
    (hmem : ∀ a, ¬ S.Frame a → ¬ S.Upper c'.1.ssecount a → s'.mem a = s.mem a) :
    A2xInv S m₀ c' s' := by
  refine ⟨by rw [hrbx, h.rbx], by rw [hrsp, h.rsp], h.sp, fun a hf hu => ?_⟩
  rw [hmem a hf hu]
  exact h.mem a hf fun h' => hu (h'.mono hle)

theorem relabel (h : A2xInv S m₀ c s) (hc : c'.1 = c.1) : A2xInv S m₀ c' s :=
  h.next (le_of_eq (by rw [hc])) rfl rfl fun _ _ _ => rfl

theorem mem_general (h : A2xInv S m₀ c s) {o : ℕ} (ho : o < 264) :
    s.mem (S.env + o) = m₀ (S.env + o) := by
  have hz := L.zregs_ge
  refine h.mem _ (S.state_apart o (by unfold EnvLayout.size; omega)) ?_
  rintro ⟨v, -, hlo, -⟩
  omega

theorem mem_vector (h : A2xInv S m₀ c s) {v k : ℕ} (hc : c.1.ssecount ≤ v) (hv : v < 32)
    (hk : k < 256) : s.mem (S.env + (L.zregs + 256 * v) + k) = m₀ (S.env + (L.zregs + 256 * v) + k) := by
  rw [Nat.add_assoc]
  refine h.mem _ (S.state_apart _ (by unfold EnvLayout.size; omega)) ?_
  rintro ⟨w, hw, hlo, hhi⟩
  omega

theorem mem_stack (h : A2xInv S m₀ c s) (hc : c.1.ssecount ≤ 8) {o : ℕ} (ho : o < S.aaBytes) :
    s.mem (S.sp + o) = m₀ (S.sp + o) := by
  obtain ⟨hf, hs⟩ := S.stack_apart o ho
  exact h.mem _ hf fun hu => hs (hu.state hc)

theorem loadWord_sp (h : A2xInv S m₀ c s) : s.mem.loadWord (s.ea .rbx spOffset) 8 = S.sp := by
  rw [← h.sp, State.ea, h.rbx]
  apply Mem.loadWord_congr
  intro k hk
  rw [Nat.add_assoc]
  exact h.mem_general (by unfold spOffset; omega)

theorem ea_rbx (h : A2xInv S m₀ c s) (o : ℕ) : s.ea .rbx o = S.env + o := by
  rw [State.ea, h.rbx]

theorem ea_rsp (h : A2xInv S m₀ c s) (o : ℕ) : s.ea .rsp o = S.rsp + o := by
  rw [State.ea, h.rsp]

end A2xInv

structure A2xStep (S : A2xSite L) (m₀ : Mem) (c c' : Counters) (p : Placement) (s s' : State) :
    Prop where
  inv : A2xInv S m₀ c' s'
  agree : AgreeBelow c.2 (a2xHostView s) (a2xHostView s')
  holds : HostHolds (a2xHostView s') p.2 fun k =>
    s.mem (a2xSource L S.env S.sp s.mem p.1 p.2 k)

end Iqemu64
