import ArtifactKeeper.Storage
import Mathlib.Data.PNat.Basic

/-!
# Reading within a budget

`BudgetReader` hands on what the reader below it delivers until the budget is spent, and then probes
for one more byte.
-/

namespace ArtifactKeeper.BoundedArchive

inductive IoError
  | invalidData (message : Text)
  | other (message : Text)

/-- A reader, with the bytes it still delivers in chunks of its own choice. -/
structure Source (R : Type*) where
  read : R → ℕ → Except IoError Bytes × R
  left : R → Bytes
  delivers : ∀ r n, 0 < n → ∃ data, (read r n).1 = .ok data ∧ data.length ≤ n ∧
    left r = data ++ left (read r n).2 ∧ (data = [] → left r = [])

def bombSentinel : Text := "ingest decompression budget exceeded"

structure BudgetReader (R : Type*) where
  inner : R
  remaining : ℕ

variable {R : Type*} (src : Source R)

/-- A read into a buffer of the given length. -/
def BudgetReader.read (r : BudgetReader R) (buf : ℕ) : Except IoError Bytes × BudgetReader R :=
  if r.remaining = 0 then
    match src.read r.inner 1 with
    | (.error e, inner) => (.error e, { r with inner })
    | (.ok [], inner) => (.ok [], { r with inner })
    | (.ok _, inner) => (.error (.invalidData bombSentinel), { r with inner })
  else
    match src.read r.inner (min buf r.remaining) with
    | (.error e, inner) => (.error e, { r with inner })
    | (.ok data, inner) => (.ok data, ⟨inner, r.remaining - data.length⟩)

/-- The bytes read into a sequence of buffers, and how the stream ended if it did. -/
def readToEnd : List ℕ+ → BudgetReader R → Bytes × Option (Except IoError Unit)
  | [], _ => ([], none)
  | buf :: buffers, r =>
    match r.read src buf with
    | (.error e, _) => ([], some (.error e))
    | (.ok [], _) => ([], some (.ok ()))
    | (.ok data, r) =>
      let (rest, ends) := readToEnd buffers r
      (data ++ rest, ends)

/-- What is read is the stream up to the budget, and it ends cleanly just if the stream fits. -/
structure Within (stream : Bytes) (budget buffers : ℕ) (out : Bytes × Option (Except IoError Unit)) :
    Prop where
  front : out.1 <+: stream.take budget
  ended : ∀ e, out.2 = some e → out.1 = stream.take budget ∧
    e = if stream.length ≤ budget then .ok () else .error (.invalidData bombSentinel)
  ends : stream.length < buffers → out.2.isSome = true

variable {src}

theorem Within.clean {stream : Bytes} {budget buffers : ℕ} (last : stream = []) :
    Within stream budget buffers ([], some (.ok ())) := by
  subst last
  exact ⟨List.nil_prefix, by simp, by simp⟩

theorem Within.append {data stream : Bytes} {budget buffers : ℕ}
    {out : Bytes × Option (Except IoError Unit)} (some : data ≠ []) (room : data.length ≤ budget)
    (rest : Within stream (budget - data.length) buffers out) :
    Within (data ++ stream) budget (buffers + 1) (data ++ out.1, out.2) := by
  have positive := List.length_pos_iff.2 some
  have taken : (data ++ stream).take budget = data ++ stream.take (budget - data.length) := by
    rw [List.take_append, List.take_of_length_le room]
  refine ⟨?_, fun e ends => ?_, fun enough => rest.ends ?_⟩
  · rw [taken]
    exact (List.prefix_append_right_inj data).2 rest.front
  · obtain ⟨read, result⟩ := rest.ended e ends
    have fits : stream.length ≤ budget - data.length ↔ (data ++ stream).length ≤ budget := by
      rw [List.length_append]
      omega
    exact ⟨by rw [taken, read], by simpa only [fits] using result⟩
  · rw [List.length_append] at enough
    omega

theorem readToEnd_within (buffers : List ℕ+) (r : BudgetReader R) :
    Within (src.left r.inner) r.remaining buffers.length (readToEnd src buffers r) := by
  induction buffers generalizing r with
  | nil => exact ⟨List.nil_prefix, nofun, nofun⟩
  | cons buf _ ih =>
    obtain ⟨inner, remaining⟩ := r
    by_cases spent : remaining = 0
    · subst spent
      obtain ⟨data, read, -, stream, last⟩ := src.delivers inner 1 one_pos
      simp only [readToEnd, BudgetReader.read, if_pos]
      generalize src.read inner 1 = answer at read stream
      obtain ⟨result, _⟩ := answer
      obtain rfl : result = .ok data := read
      cases data with
      | nil => exact .clean (last rfl)
      | cons b _ => exact ⟨List.nil_prefix, by simp [stream], by simp⟩
    · obtain ⟨data, read, length, stream, last⟩ :=
        src.delivers inner (min buf remaining) (lt_min buf.2 (Nat.pos_of_ne_zero spent))
      simp only [readToEnd, BudgetReader.read, if_neg spent]
      generalize src.read inner (min buf remaining) = answer at read stream
      obtain ⟨result, after⟩ := answer
      obtain rfl : result = .ok data := read
      cases data with
      | nil => exact .clean (last rfl)
      | cons b data =>
        rw [stream]
        exact (ih ⟨after, _⟩).append (List.cons_ne_nil b data) (length.trans (min_le_right _ _))

/-- A slice of bytes as a reader. -/
def slice : Source Bytes where
  read bytes n := (.ok (bytes.take n), bytes.drop n)
  left bytes := bytes
  delivers bytes n positive := by
    refine ⟨bytes.take n, rfl, List.length_take_le _ _, (List.take_append_drop n bytes).symm, ?_⟩
    intro empty
    exact (List.take_eq_nil_iff.1 empty).resolve_left positive.ne'

/-- Four bytes with a budget of three. -/
theorem readToEnd_within_slice :
    readToEnd slice [2, 2, 2, 2, 2] ⟨[1, 2, 3, 4], 3⟩ =
      ([1, 2, 3], some (.error (.invalidData bombSentinel))) ∧
    Within [1, 2, 3, 4] 3 5 (readToEnd slice [2, 2, 2, 2, 2] ⟨[1, 2, 3, 4], 3⟩) :=
  ⟨rfl, @readToEnd_within _ slice [2, 2, 2, 2, 2] ⟨[1, 2, 3, 4], 3⟩⟩

end ArtifactKeeper.BoundedArchive
