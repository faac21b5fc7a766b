import Tikv.LibBytes
/-!
# LibTagged — optional fields under tags

The optional fields of a record follow each other, each under a tag byte of its own, until the bytes end or an unknown
tag comes.  A reader of one field takes the bytes after the tag and gives what is left with the field filled in; the loop
over it needs no more rounds than there are bytes, so `readTagged` has as many.  What a field reads back is one rewriting
step (`readTagged_of_field`), and what every field keeps the loop keeps (`tagLoop_invariant`).
-/
namespace Lib

section Tagged

variable {σ ε : Type} (field : UInt8 → Bytes → σ → Except ε (Option (Bytes × σ)))

/-- The loop; an unknown tag, for which the reader gives `none`, ends the record. -/
def tagLoop : Nat → Bytes → σ → Except ε σ
  | _, [], s => .ok s
  | 0, _ :: _, s => .ok s
  | n + 1, tag :: b, s =>
    match field tag b s with
    | .error e => .error e
    | .ok none => .ok s
    | .ok (some (b, s)) => tagLoop n b s

def readTagged (b : Bytes) (s : σ) : Except ε σ := tagLoop field b.length b s

def Shortens : Prop :=
  ∀ {tag : UInt8} {b b' : Bytes} {s s' : σ}, field tag b s = .ok (some (b', s')) → b'.length ≤ b.length

variable {field}

theorem tagLoop_rounds (hshort : Shortens field) : ∀ {n m : Nat} {b : Bytes} (s : σ), b.length ≤ n → b.length ≤ m →
    tagLoop field n b s = tagLoop field m b s
  | _, _, [], _, _, _ => by rw [tagLoop, tagLoop]
  | 0, _, _ :: _, _, h, _ => nomatch h
  | _ + 1, 0, _ :: _, _, _, h => nomatch h
  | n + 1, m + 1, tag :: b, s, hn, hm => by
    rw [tagLoop, tagLoop]
    split
    · rfl
    · rfl
    rename_i b' s' hfield
    have hlen := hshort hfield
    rw [List.length_cons] at hn hm
    exact tagLoop_rounds hshort s' (by omega) (by omega)

theorem readTagged_of_field (hshort : Shortens field) {tag : UInt8} {b b' : Bytes} {s s' : σ}
    (h : field tag b s = .ok (some (b', s'))) : readTagged field (tag :: b) s = readTagged field b' s' := by
  unfold readTagged
  rw [List.length_cons, tagLoop, h]
  exact tagLoop_rounds hshort s' (hshort h) le_rfl

theorem readTagged_of_unknown {tag : UInt8} {b : Bytes} {s : σ} (h : field tag b s = .ok none) :
    readTagged field (tag :: b) s = .ok s := by
  unfold readTagged
  rw [List.length_cons, tagLoop, h]

theorem tagLoop_invariant {I : σ → Prop}
    (hfield : ∀ {tag : UInt8} {b b' : Bytes} {s s' : σ}, I s → field tag b s = .ok (some (b', s')) → I s') :
    ∀ {n : Nat} {b : Bytes} {s s' : σ}, I s → tagLoop field n b s = .ok s' → I s'
  | _, [], _, _, hs, h => by rw [tagLoop] at h; cases h; exact hs
  | 0, _ :: _, _, _, hs, h => by rw [tagLoop] at h; cases h; exact hs
  | n + 1, tag :: b, s, s', hs, h => by
    rw [tagLoop] at h
    split at h
    · cases h
    · cases h; exact hs
    rename_i b₁ s₁ hread
    exact tagLoop_invariant hfield (hfield hs hread) h

end Tagged

def StartsWithout (tags : List UInt8) (suffix : Bytes) : Prop := ∀ tag ∈ suffix.head?, tag ∉ tags

end Lib
