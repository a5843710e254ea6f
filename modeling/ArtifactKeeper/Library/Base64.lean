import ArtifactKeeper.Library.Text

/-!
# Base64

The standard alphabet with padding: the encoder, and a decoder that inverts it.
-/

namespace Base64

open List

def alphabet : Text :=
  "ABCDEFGHIJKLMNOPQRSTUVWXYZabcdefghijklmnopqrstuvwxyz0123456789+/"

def symbol (bits : ℕ) : Char := alphabet.getD bits '='

/-- The place of a symbol in the alphabet. -/
def value (c : Char) : ℕ := alphabet.idxOf c

theorem value_symbol : ∀ x < 64, value (symbol x) = x := by decide +kernel

theorem symbol_ne_pad : ∀ x < 64, symbol x ≠ '=' := by decide +kernel

/-- Three bytes are four symbols. -/
def encode : List UInt8 → Text
  | a :: b :: c :: rest =>
    symbol (a.toNat / 4) :: symbol (a.toNat % 4 * 16 + b.toNat / 16) ::
      symbol (b.toNat % 16 * 4 + c.toNat / 64) :: symbol (c.toNat % 64) :: encode rest
  | [a, b] =>
    [symbol (a.toNat / 4), symbol (a.toNat % 4 * 16 + b.toNat / 16), symbol (b.toNat % 16 * 4), '=']
  | [a] => [symbol (a.toNat / 4), symbol (a.toNat % 4 * 16), '=', '=']
  | [] => []

def decode : Text → List UInt8
  | p :: q :: r :: t :: rest =>
    let a := UInt8.ofNat (value p * 4 + value q / 16)
    let b := UInt8.ofNat (value q % 16 * 16 + value r / 4)
    if r = '=' then [a]
    else if t = '=' then [a, b]
    else a :: b :: UInt8.ofNat (value r % 4 * 64 + value t) :: decode rest
  | _ => []

theorem ofNat_eq {n : ℕ} {b : UInt8} (same : n = b.toNat) : UInt8.ofNat n = b := by
  rw [same, UInt8.ofNat_toNat]

theorem decode_encode (bytes : List UInt8) : decode (encode bytes) = bytes := by
  fun_induction encode bytes with
  | case1 a b c _ ih =>
    have bounds := And.intro a.toNat_lt (And.intro b.toNat_lt c.toNat_lt)
    rw [decode, if_neg (symbol_ne_pad _ (by omega)), if_neg (symbol_ne_pad _ (by omega)), ih]
    simp (disch := omega) only [value_symbol]
    rw [ofNat_eq (b := a) (by omega), ofNat_eq (b := b) (by omega), ofNat_eq (b := c) (by omega)]
  | case2 a b =>
    have bounds := And.intro a.toNat_lt b.toNat_lt
    rw [decode, if_neg (symbol_ne_pad _ (by omega)), if_pos rfl]
    simp (disch := omega) only [value_symbol]
    rw [ofNat_eq (b := a) (by omega), ofNat_eq (b := b) (by omega)]
  | case3 a =>
    have bounds := a.toNat_lt
    rw [decode, if_pos rfl]
    simp (disch := omega) only [value_symbol]
    rw [ofNat_eq (b := a) (by omega)]
  | case4 => rfl

theorem encode_injective : Function.Injective encode :=
  Function.LeftInverse.injective decode_encode

end Base64
