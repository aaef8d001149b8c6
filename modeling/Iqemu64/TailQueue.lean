import Iqemu64.HeapList

/-!
# Tail queues

A tail queue is a list linked forwards by pointers to entries, and backwards by pointers to links: the
link of the entry before, or the one in the head of the queue. `IsQueue q as` says that both directions
go through the entries `as`. New entries are put in at the front, and an entry is taken out through its
own link.
-/

namespace TailQueue
open HeapList List Function

inductive Link where
  | head
  | entry (a : ℕ)
  deriving DecidableEq, Repr

structure Queue where
  first : Option ℕ := none
  last : Link := .head
  next : ℕ → Option ℕ := fun _ => none
  prev : ℕ → Option Link := fun _ => none

namespace Queue

variable (q : Queue)

def setNext : Link → Option ℕ → Queue
  | .head, p => { q with first := p }
  | .entry a, p => { q with next := update q.next a p }

def setPrev : Option ℕ → Link → Queue
  | some a, l => { q with prev := update q.prev a (some l) }
  | none, l => { q with last := l }

def insertHead (a : ℕ) : Queue :=
  let linked := (q.setNext (.entry a) q.first).setPrev q.first (.entry a)
  { linked with first := some a, prev := update linked.prev a (some .head) }

def remove (a : ℕ) : Option Queue :=
  (q.prev a).map fun l =>
    let unlinked := (q.setPrev (q.next a) l).setNext l (q.next a)
    { unlinked with
      next := update unlinked.next a none
      prev := update unlinked.prev a none }

end Queue

def IsBack (prev : ℕ → Option Link) (last : Link) : Link → List ℕ → Prop
  | l, [] => last = l
  | l, a :: as => prev a = some l ∧ IsBack prev last (.entry a) as

structure IsQueue (q : Queue) (as : List ℕ) : Prop where
  forward : IsList q.next q.first as
  back : IsBack q.prev q.last .head as
  nodup : as.Nodup

section Lemmas
variable {q : Queue} {prev prev' : ℕ → Option Link} {last l : Link} {a : ℕ} {as : List ℕ}

theorem IsBack.congr (h : IsBack prev last l as) (heq : ∀ a ∈ as, prev' a = prev a) :
    IsBack prev' last l as := by
  induction as generalizing l with
  | nil => exact h
  | cons a as ih =>
    rw [forall_mem_cons] at heq
    exact ⟨heq.1.trans h.1, ih h.2 heq.2⟩

theorem IsQueue.first_eq (h : IsQueue q as) : q.first = as.head? := h.forward.head?

theorem IsQueue.insertHead (h : IsQueue q as) (ha : a ∉ as) : IsQueue (q.insertHead a) (a :: as) := by
  cases as with
  | nil =>
    have hfirst : q.first = none := h.forward
    refine ⟨⟨rfl, ?_⟩, ⟨?_, ?_⟩, nodup_cons.mpr ⟨ha, h.nodup⟩⟩
    · simp [Queue.insertHead, Queue.setNext, Queue.setPrev, hfirst, IsList]
    · simp [Queue.insertHead]
    · simp [Queue.insertHead, Queue.setPrev, hfirst, IsBack]
  | cons b bs =>
    obtain ⟨hfirst, hrest⟩ := h.forward
    have hab : a ≠ b := fun hab => ha (hab ▸ mem_cons_self)
    have hbs : b ∉ bs := (nodup_cons.mp h.nodup).1
    refine ⟨⟨rfl, ?_⟩, ⟨?_, ?_, ?_⟩, nodup_cons.mpr ⟨ha, h.nodup⟩⟩
    · have := h.forward.cons ha
      simpa [Queue.insertHead, Queue.setNext, Queue.setPrev, hfirst] using this.2
    · simp [Queue.insertHead]
    · simp [Queue.insertHead, Queue.setPrev, hfirst, hab.symm]
    · have hlast : (q.insertHead a).last = q.last := by
        simp [Queue.insertHead, Queue.setNext, Queue.setPrev, hfirst]
      rw [hlast]
      refine h.back.2.congr fun c hc => ?_
      have hca : c ≠ a := fun hca => ha (hca ▸ mem_cons_of_mem b hc)
      have hcb : c ≠ b := fun hcb => hbs (hcb ▸ hc)
      simp [Queue.insertHead, Queue.setNext, Queue.setPrev, hfirst, hca, hcb]

theorem IsQueue.remove (h : IsQueue q (a :: as)) : ∃ q', q.remove a = some q' ∧ IsQueue q' as := by
  have hprev : q.prev a = some .head := h.back.1
  have hnext : q.next a = as.head? := h.forward.2.head?
  obtain ⟨ha, hnodup⟩ := nodup_cons.mp h.nodup
  refine ⟨_, by rw [Queue.remove, hprev, Option.map_some], ?_, ?_, hnodup⟩
  · have hrest : IsList q.next as.head? as := hnext ▸ h.forward.2
    have hcongr : ∀ c ∈ as, update q.next a none c = q.next c := fun c hc =>
      update_of_ne (ne_of_mem_of_not_mem hc ha) _ _
    cases as with
    | nil => simp [Queue.setNext, hnext, IsList]
    | cons b bs =>
      simpa [Queue.setNext, Queue.setPrev, hnext] using hrest.congr hcongr
  · cases as with
    | nil => simp [Queue.setNext, Queue.setPrev, hnext, IsBack]
    | cons b bs =>
      have hab : b ≠ a := fun hab => ha (hab ▸ mem_cons_self)
      have hbs : b ∉ bs := (nodup_cons.mp hnodup).1
      simp only [Queue.setPrev, Queue.setNext, hnext]
      refine ⟨by simp [hab], h.back.2.2.congr fun c hc => ?_⟩
      have hca : c ≠ a := fun hca => ha (hca ▸ mem_cons_of_mem b hc)
      have hcb : c ≠ b := fun hcb => hbs (hcb ▸ hc)
      simp [hca, hcb]

end Lemmas

end TailQueue
