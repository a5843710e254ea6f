import Mathlib.Data.List.Infix

/-!
# Byte streams

A stream is the list of its items, chunks or errors.  A reader takes the chunks up to the first
error (`delivered`) and learns whether the stream ended or failed (`failure`).
-/

namespace ByteStreams

open List

variable {ε β : Type*}

abbrev ByteStream (ε β : Type*) := List (Except ε (List β))

/-- The bytes before the first error. -/
def delivered : ByteStream ε β → List β
  | [] => []
  | .ok chunk :: rest => chunk ++ delivered rest
  | .error _ :: _ => []

def failure : ByteStream ε β → Option ε
  | [] => none
  | .ok _ :: rest => failure rest
  | .error e :: _ => some e

@[simp] theorem delivered_nil : delivered ([] : ByteStream ε β) = [] := rfl

@[simp] theorem delivered_ok (chunk : List β) (rest : ByteStream ε β) :
    delivered (.ok chunk :: rest) = chunk ++ delivered rest := rfl

@[simp] theorem delivered_error (e : ε) (rest : ByteStream ε β) :
    delivered (.error e :: rest) = [] := rfl

@[simp] theorem failure_nil : failure ([] : ByteStream ε β) = none := rfl

@[simp] theorem failure_ok (chunk : List β) (rest : ByteStream ε β) :
    failure (.ok chunk :: rest) = failure rest := rfl

@[simp] theorem failure_error (e : ε) (rest : ByteStream ε β) :
    failure (.error e :: rest) = some e := rfl

structure Reads (body : ByteStream ε β) (object : List β) : Prop where
  front : delivered body <+: object
  whole : failure body = none → delivered body = object

instance [DecidableEq β] (body : ByteStream ε β) (object : List β) :
    Decidable (Reads body object) :=
  decidable_of_iff (delivered body <+: object ∧ ((failure body).isNone → delivered body = object))
    ⟨fun h => ⟨h.1, fun ends => h.2 (by rw [ends]; rfl)⟩,
      fun h => ⟨h.front, fun ends => h.whole (Option.isNone_iff_eq_none.1 ends)⟩⟩

theorem reads_nil {object : List β} : Reads ([] : ByteStream ε β) object ↔ object = [] :=
  ⟨fun h => (h.whole rfl).symm, fun h => h ▸ ⟨prefix_rfl, fun _ => rfl⟩⟩

theorem Reads.ok_cons {chunk object : List β} {rest : ByteStream ε β}
    (h : Reads (.ok chunk :: rest) object) : ∃ tail, object = chunk ++ tail ∧ Reads rest tail := by
  obtain ⟨tail, rfl⟩ : chunk <+: object := (prefix_append ..).trans h.front
  refine ⟨tail, rfl, ?_, fun ends => ?_⟩
  · exact (prefix_append_right_inj chunk).1 h.front
  · exact append_cancel_left (h.whole ends)

theorem reads_delivered (body : ByteStream ε β) : Reads body (delivered body) :=
  ⟨prefix_rfl, fun _ => rfl⟩

end ByteStreams
