import Cassette.Image

/-! When reads succeed, and what they depend on. In a whole image, one whose file is as long
as it was measured, a read that goes on has found its bytes inside the measured length
(`fetch_bind_ok`). A run of bytes may stand in two images, or twice in one, at different
places (`Same`); then both show the same bytes, numbers, words and slices there. -/

namespace Cassette

theorem bind_eq_ok_iff {ε α β : Type} {x : Except ε β} {f : β → Except ε α} {r : α} :
    (x >>= f) = .ok r ↔ ∃ a, x = .ok a ∧ f a = .ok r := by
  cases x with
  | error fault => exact ⟨nofun, fun ⟨_, h, _⟩ => nomatch h⟩
  | ok a => exact ⟨fun h => ⟨a, rfl, h⟩, fun ⟨_, h, h'⟩ => Except.ok.inj h ▸ h'⟩

namespace Image

variable {α : Type} {image : Image} {offset count : Nat} {what : String} {r : α}

/-- The file is as long as it was measured. -/
def Whole (image : Image) : Prop := image.length = image.bytes.size

theorem whole_ofBytes (bytes : Bytes) : (ofBytes bytes).Whole := rfl

theorem claim_bind_ok {f : Unit → Except ReadFault α} :
    (image.claim offset count what >>= f) = .ok r
      ↔ offset + count ≤ image.length ∧ f () = .ok r := by
  unfold claim
  split
  · next fits => exact ⟨fun h => ⟨fits, h⟩, fun h => h.2⟩
  · next short => exact ⟨nofun, fun h => absurd h.1 short⟩

theorem reach_bind_ok (whole : image.Whole) {f : Unit → Except ReadFault α} :
    (image.reach offset count >>= f) = .ok r
      ↔ (count = 0 ∨ offset + count ≤ image.length) ∧ f () = .ok r := by
  rw [reach, ← show image.length = image.bytes.size from whole]
  split
  · next fits => exact ⟨fun h => ⟨fits, h⟩, fun h => h.2⟩
  · next short => exact ⟨nofun, fun h => absurd h.1 short⟩

theorem fetch_bind_ok (whole : image.Whole) {f : Unit → Except ReadFault α} :
    (image.fetch offset count what >>= f) = .ok r
      ↔ offset + count ≤ image.length ∧ f () = .ok r := by
  rw [fetch, bind_assoc, claim_bind_ok, reach_bind_ok whole]
  exact ⟨fun h => ⟨h.1, h.2.2⟩, fun h => ⟨h.1, .inr h.1, h.2⟩⟩

theorem size_slice (whole : image.Whole) (inside : offset + count ≤ image.length) :
    (image.slice offset count).size = count := by
  have there : offset + count ≤ image.bytes.size := whole ▸ inside
  rw [slice, Array.size_extract, Nat.min_eq_left there, Nat.add_sub_cancel_left]

theorem toList_slice (whole : image.Whole)
    (inside : offset + count ≤ image.length) :
    (image.slice offset count).toList =
      (List.range' 0 count).map fun i => image.byte (offset + i) := by
  have size := size_slice whole inside
  apply List.ext_getElem
  · simp [size]
  · intro i here _
    simp only [Array.length_toList, size] at here
    have there : offset + i < image.bytes.size := by
      have := show image.length = image.bytes.size from whole
      omega
    simp [slice, byte, there]

theorem byteAt_eq_ok (whole : image.Whole) (inside : offset < image.length) :
    image.byteAt offset = .ok (image.byte offset) := by
  have there : offset + 1 ≤ image.bytes.size := whole ▸ inside
  rw [byteAt, if_neg (Nat.not_lt.2 inside), if_pos there]

theorem excerpt_eq_ok (whole : image.Whole) (inside : offset + count ≤ image.length) :
    image.excerpt offset count = .ok (image.slice offset count) := by
  have there : offset + count ≤ image.bytes.size := whole ▸ inside
  rw [excerpt, if_neg (Nat.not_lt.2 inside), if_pos (.inr there)]

/-! ### The same bytes at two places -/

/-- `count` bytes that stand at `i` in one image stand at `j` in another. -/
structure Same (a : Image) (i : Nat) (b : Image) (j count : Nat) : Prop where
  left : i + count ≤ a.bytes.size
  right : j + count ≤ b.bytes.size
  byte : ∀ k < count, b.byte (j + k) = a.byte (i + k)

namespace Same

variable {a b : Image} {i j m n size : Nat}

/-- A stretch of the run, named by the two places where it stands. -/
theorem part (s : Same a i b j count) (starts : i ≤ m) (ends : m + size ≤ i + count)
    (here : n + i = m + j) : Same a m b n size where
  left := by have := s.left; omega
  right := by have := s.right; omega
  byte k hk := by
    have := s.byte (m - i + k) (by omega)
    rwa [show j + (m - i + k) = n + k by omega, show i + (m - i + k) = m + k by omega] at this

theorem of_append {before behind : Bytes} (whole : a.Whole) (inside : i + count ≤ a.length)
    (copied : b.bytes = before ++ a.slice i count ++ behind) : Same a i b before.size count := by
  have size := size_slice whole inside
  have there : i + count ≤ a.bytes.size := whole ▸ inside
  refine ⟨there, ?_, fun k hk => ?_⟩
  · simp only [copied, Array.size_append, size]
    omega
  · have shown : b.bytes[before.size + k]? = a.bytes[i + k]? := by
      rw [copied, Array.append_assoc, Array.getElem?_append_right (Nat.le_add_right _ _),
        Nat.add_sub_cancel_left, Array.getElem?_append_left (by omega), Image.slice,
        Array.getElem?_extract, if_pos (by omega)]
    simp only [Image.byte, Array.getD_eq_getD_getElem?, shown]

theorem first (s : Same a i b j count) (some : 0 < count) : b.byte j = a.byte i := s.byte 0 some

theorem number (s : Same a i b j count) (fits : size ≤ count) :
    b.number j size = a.number i size := by
  induction size generalizing i j count with
  | zero => rfl
  | succ size ih =>
    have rest : Same a (i + 1) b (j + 1) size := s.part (by omega) (by omega) (by omega)
    rw [Image.number, Image.number, s.first (by omega), ih rest (Nat.le_refl size)]

theorem number_add (s : Same a i b j count) (fits : n + size ≤ count) :
    b.number (j + n) size = a.number (i + n) size :=
  (s.part (Nat.le_add_right i n) (by omega) (by omega)).number (Nat.le_refl size)

theorem word (s : Same a i b j count) (fits : 2 ≤ count) : b.word j = a.word i := by
  rw [Image.word, Image.word, s.number fits]

theorem word_add (s : Same a i b j count) (fits : n + 2 ≤ count) :
    b.word (j + n) = a.word (i + n) := by
  rw [Image.word, Image.word, s.number_add fits]

theorem words_add (s : Same a i b j count) (fits : n + 2 * size ≤ count) :
    b.words (j + n) size = a.words (i + n) size := by
  induction size generalizing n with
  | zero => rfl
  | succ size ih =>
    have rest := ih (show n + 2 + 2 * size ≤ count by omega)
    rw [Image.words, Image.words, s.word_add (by omega), Nat.add_assoc j, Nat.add_assoc i, rest]

theorem slice (s : Same a i b j count) : b.slice j count = a.slice i count := by
  have left := s.left
  have right := s.right
  apply Array.ext
  · simp only [Image.slice, Array.size_extract]
    omega
  · intro k hb ha
    simp only [Image.slice, Array.size_extract] at hb ha
    have same := s.byte k (by omega)
    simp only [Image.byte, Array.getD_eq_getD_getElem?] at same
    rw [Array.getElem?_eq_getElem (by omega), Array.getElem?_eq_getElem (by omega)] at same
    simpa [Image.slice] using same

theorem slice_add (s : Same a i b j count) (fits : n + size ≤ count) :
    b.slice (j + n) size = a.slice (i + n) size :=
  (s.part (Nat.le_add_right i n) (by omega) (by omega) : Same a (i + n) b (j + n) size).slice

end Same

end Image

end Cassette
