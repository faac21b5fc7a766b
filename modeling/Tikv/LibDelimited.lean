import Tikv.LibBytes
/-!
# LibDelimited — items that say where they end

A reader takes an item off the front of the bytes and leaves the rest.  Items written one after another are read back one
after another: as many as a count says (`readMany_encode`), or until the bytes end (`readAll_encode`).
-/
namespace Lib

open List

section Many

variable {α ε : Type} (item : Bytes → Except ε (α × Bytes))

def readMany : Nat → Bytes → Except ε (List α × Bytes)
  | 0, b => .ok ([], b)
  | n + 1, b =>
    match item b with
    | .error e => .error e
    | .ok (x, b) => (readMany n b).map fun (xs, b) => (x :: xs, b)

variable {item} {encode : α → Bytes}

theorem readMany_encode (rest : Bytes) : ∀ (xs : List α), (∀ x ∈ xs, ∀ rest, item (encode x ++ rest) = .ok (x, rest)) →
    readMany item xs.length (xs.flatMap encode ++ rest) = .ok (xs, rest)
  | [], _ => rfl
  | x :: xs, h => by
    rw [flatMap_cons, append_assoc, length_cons, readMany, h x mem_cons_self]
    dsimp only
    rw [readMany_encode rest xs fun y hy => h y (mem_cons_of_mem _ hy)]
    rfl

theorem readMany_length (hitem : ∀ {b x rest}, item b = .ok (x, rest) → rest.length ≤ b.length) :
    ∀ {n : Nat} {b rest : Bytes} {xs : List α}, readMany item n b = .ok (xs, rest) →
      rest.length ≤ b.length ∧ xs.length = n
  | 0, _, _, _, h => by cases h; exact ⟨le_rfl, rfl⟩
  | n + 1, b, rest, xs, h => by
    rw [readMany] at h
    split at h
    · cases h
    rename_i x b' hx
    cases hrest : readMany item n b' with
    | error e => rw [hrest] at h; cases h
    | ok r =>
      rw [hrest] at h
      cases h
      obtain ⟨hle, hn⟩ := readMany_length hitem hrest
      exact ⟨hle.trans (hitem hx), congrArg Nat.succ hn⟩

end Many

section All

variable {α ε : Type} (next : Bytes → Except ε (Option (α × Bytes)))

/-- Items until `next` gives none, in `n` rounds at most, and the bytes that are left then. -/
def readAll : Nat → Bytes → Except ε (List α × Bytes)
  | 0, b => .ok ([], b)
  | n + 1, b =>
    match next b with
    | .error e => .error e
    | .ok none => .ok ([], b)
    | .ok (some (x, b)) => (readAll n b).map fun (xs, b) => (x :: xs, b)

variable {next} {encode : α → Bytes}

theorem readAll_encode (hnil : next [] = .ok none) : ∀ (xs : List α) {n : Nat},
    (∀ x ∈ xs, encode x ≠ [] ∧ ∀ rest, next (encode x ++ rest) = .ok (some (x, rest))) →
    (xs.flatMap encode).length ≤ n → readAll next n (xs.flatMap encode) = .ok (xs, [])
  | [], 0, _, _ => rfl
  | [], n + 1, _, _ => by rw [flatMap_nil, readAll, hnil]
  | x :: xs, n, h, hn => by
    obtain ⟨hne, hx⟩ := h x mem_cons_self
    have hpos := length_pos_of_ne_nil hne
    rw [flatMap_cons, length_append] at hn
    cases n with
    | zero => omega
    | succ n =>
      rw [flatMap_cons, readAll, hx]
      dsimp only
      rw [readAll_encode hnil xs (fun y hy => h y (mem_cons_of_mem _ hy)) (by omega)]
      rfl

end All

end Lib
