import Mathlib.Data.List.Infix

/-!
# Broadcast channels

A channel keeps what was sent, and every receiver a position in it.  A receiver takes the items in
order, or is told that it has lagged behind, or that the channel is closed.
-/

namespace Broadcast

open List

variable {α : Type*} {sent sent' seen : List α} {position next : ℕ} {a : α}

inductive Report (α : Type*)
  | item (a : α)
  | lagged (skipped : ℕ)
  | closed

inductive Answer
  | next
  | lag (skipped : ℕ)
  | close
  deriving DecidableEq

/-- One answer, and the position after it; there is none while nothing more was sent. -/
def receive (sent : List α) (position : ℕ) : Answer → Option (Report α × ℕ)
  | .next => sent[position]?.map fun a => (.item a, position + 1)
  | .lag skipped =>
    if position + skipped ≤ sent.length then some (.lagged skipped, position + skipped) else none
  | .close => some (.closed, position)

structure Followed (sent : List α) (position : ℕ) (seen : List α) : Prop where
  within : position ≤ sent.length
  all : sent.take position = seen

theorem followed_start (sent : List α) : Followed sent 0 [] := ⟨Nat.zero_le _, rfl⟩

theorem Followed.mono (followed : Followed sent position seen) (more : sent <+: sent') :
    Followed sent' position seen := by
  obtain ⟨_, rfl⟩ := more
  refine ⟨?_, ?_⟩
  · have within := followed.within
    rw [length_append]
    omega
  · rw [take_append_of_le_length followed.within, followed.all]

theorem receive_item {answer : Answer} (told : receive sent position answer = some (.item a, next)) :
    sent[position]? = some a ∧ next = position + 1 := by
  cases answer with
  | next =>
    obtain ⟨b, found, same⟩ := Option.map_eq_some_iff.1 told
    obtain ⟨item, rfl⟩ := Prod.mk.inj same
    exact ⟨by rw [found, Report.item.inj item], rfl⟩
  | lag =>
    rw [receive] at told
    split_ifs at told
    cases (Prod.mk.inj (Option.some.inj told)).1
  | close => cases (Prod.mk.inj (Option.some.inj told)).1

theorem Followed.item (followed : Followed sent position seen) (here : sent[position]? = some a) :
    Followed sent (position + 1) (seen ++ [a]) := by
  obtain ⟨inside, rfl⟩ := List.getElem?_eq_some_iff.1 here
  refine ⟨inside, ?_⟩
  rw [take_succ_eq_append_getElem inside, followed.all]

theorem Followed.prefix_item (followed : Followed sent position seen)
    (here : sent[position]? = some a) : seen ++ [a] <+: sent :=
  (followed.item here).all ▸ take_prefix _ _

end Broadcast
