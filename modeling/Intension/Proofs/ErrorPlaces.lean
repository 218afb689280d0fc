import Intension.Proofs.Binary.Places
import Intension.Proofs.Grammar.Slicing

/-!
# Intension.Proofs.ErrorPlaces

Where errors are.  Whatever is wrong with a text or with bytes that are read, the error
says a place in them: one at which a text may be cut, and one not past the last byte.
On the way there nothing is looked at that is not in the input
(`errors_point_into_input`).
-/

namespace Intension

open Binary (Setting Form Inside)

/-- An error with some property that can be decided. -/
theorem exists_error {ε α : Type} {x : Except ε α} {p : ε → Bool}
    (h : (match x with | .error e => p e | .ok _ => false) = true) : ∃ e, x = .error e ∧ p e := by
  cases x with
  | error e => exact ⟨e, rfl, h⟩
  | ok v => cases h

/-- **Errors point into the input.**  Where a context, a patch, a dimension or a path cannot be
read from a text, the error is at an offset up to the end of the text and between two of its
characters; no slice that the tokens are cut with, and no index into them, is out of range or off
a character.  Where a value of whatever kind cannot be read from bytes, the error is at an offset
up to their end; readers are always somewhere in the bytes, and take those between two offsets
that are both inside. -/
theorem errors_point_into_input (limits : Limits) (t : Text) (σ : Setting) (bs : List UInt8) :
    ((∀ e, Context.parse limits t = .error e → e.offset ≤ t.byteLength ∧ t.OnBoundary e.offset) ∧
      (∀ e, Patch.parse limits t = .error e → e.offset ≤ t.byteLength ∧ t.OnBoundary e.offset) ∧
      (∀ e, Dimension.parse t = .error e → e.offset ≤ t.byteLength ∧ t.OnBoundary e.offset) ∧
      (∀ e, Path.parse t = .error e → e.offset ≤ t.byteLength ∧ t.OnBoundary e.offset) ∧
      Slicing.tokens? t 0 [] = some (Lexeme.ofText t) ∧
      ∀ angledOnly lexemes, Slicing.run? angledOnly limits t.byteLength lexemes (.within []) 0 =
        some (Grammar.run angledOnly limits t.byteLength (.within []) lexemes)) ∧
    (∀ form : Form,
      (∀ e, Binary.decode σ (form.read σ) bs = .error e → e.offset ≤ bs.length) ∧
      Inside 0 0 (form.read σ)) ∧
    ∀ s : Binary.Input, s.Of bs → ∀ count,
      (s.offset + count ≤ bs.length ∧ (Binary.Read.raw count).run s =
        .ok (bs.extract s.offset (s.offset + count))
          { s with offset := s.offset + count, rest := bs.drop (s.offset + count) }) ∨
      (bs.length < s.offset + count ∧
        (Binary.Read.raw count).run s = .error ⟨s.offset, .truncated count⟩ s) := by
  have hplaced {α : Type} {x : Except ParseError α} (hx : Placed t x) (e : ParseError)
      (he : x = .error e) : e.offset ≤ t.byteLength ∧ t.OnBoundary e.offset :=
    ⟨(hx e he).le, hx e he⟩
  refine ⟨⟨hplaced (Context.placed_parse limits t), hplaced (Patch.placed_parse limits t),
    hplaced (Dimension.placed_parse t), hplaced (Path.placed_parse t),
    Slicing.tokens?_eq_ofText t, fun _ _ => Slicing.run?_eq rfl⟩, fun form => ⟨fun e he => ?_, ?_⟩,
    fun s hs count => Binary.run_raw_of hs count⟩
  · exact Binary.decode_error_offset_le (Binary.inside_read form) he
  · exact Binary.inside_read form

/-- An escape that is none after a character of two bytes, a text that ends too soon, a number that
is no dimension, a path that ends with a colon, and a string that is no text. -/
theorem errors_point_past_wide_characters :
    (∃ e, Context.parse .standard "<\"ü\\q\">".toList = .error e ∧ e.offset = 5 ∧
      e.offset ≤ 8 ∧ Text.OnBoundary "<\"ü\\q\">".toList e.offset) ∧
    (∃ e, Patch.parse .standard "[\"é\"".toList = .error e ∧ e.offset = 5 ∧
      e.offset ≤ 5 ∧ Text.OnBoundary "[\"é\"".toList e.offset) ∧
    (∃ e, Dimension.parse " 1.5".toList = .error e ∧ e.offset = 1 ∧
      e.offset ≤ 4 ∧ Text.OnBoundary " 1.5".toList e.offset) ∧
    (∃ e, Path.parse "\"é\":".toList = .error e ∧ e.offset = 5 ∧
      e.offset ≤ 5 ∧ Text.OnBoundary "\"é\":".toList e.offset) ∧
    (∃ e, Binary.decode ⟨.standard, none⟩ (Form.base.read ⟨.standard, none⟩)
      [0, 0, 0, 4, 0, 0, 0, 2, 195, 40] = .error e ∧ e.offset = 8 ∧ e.offset ≤ 10) ∧
    (Binary.Read.raw 4).run (.start .standard [0, 0, 0, 4, 7]) =
      .ok [0, 0, 0, 4] ⟨4, [7], 1024⟩ := by
  obtain ⟨e, he, heoffset⟩ := exists_error (p := (·.offset == 5))
    (x := Context.parse .standard "<\"ü\\q\">".toList) (by decide +kernel)
  obtain ⟨f, hf, hfoffset⟩ := exists_error (p := (·.offset == 5))
    (x := Patch.parse .standard "[\"é\"".toList) (by decide +kernel)
  obtain ⟨g, hg, hgoffset⟩ := exists_error (p := (·.offset == 1))
    (x := Dimension.parse " 1.5".toList) (by decide +kernel)
  obtain ⟨k, hk, hkoffset⟩ := exists_error (p := (·.offset == 5))
    (x := Path.parse "\"é\":".toList) (by decide +kernel)
  have hcontext := (errors_point_into_input .standard "<\"ü\\q\">".toList ⟨.standard, none⟩ []).1.1
  have hpatch := (errors_point_into_input .standard "[\"é\"".toList ⟨.standard, none⟩ []).1.2.1
  have hdimension := (errors_point_into_input .standard " 1.5".toList ⟨.standard, none⟩ []).1.2.2.1
  have hpath := (errors_point_into_input .standard "\"é\":".toList ⟨.standard, none⟩ []).1.2.2.2.1
  have hbase := (errors_point_into_input .standard [] ⟨.standard, none⟩
    [0, 0, 0, 4, 0, 0, 0, 2, 195, 40]).2.1 .base
  have hraw := (errors_point_into_input .standard [] ⟨.standard, none⟩ [0, 0, 0, 4, 7]).2.2
    _ (Binary.Input.of_start .standard _) 4
  refine ⟨⟨e, he, eq_of_beq heoffset, hcontext e he⟩, ⟨f, hf, eq_of_beq hfoffset, hpatch f hf⟩,
    ⟨g, hg, eq_of_beq hgoffset, hdimension g hg⟩, ⟨k, hk, eq_of_beq hkoffset, hpath k hk⟩,
    ⟨⟨8, .stringNotText (.invalid 0 1)⟩, rfl, rfl, hbase.1 _ rfl⟩, ?_⟩
  obtain ⟨-, hraw⟩ | ⟨hlt, -⟩ := hraw
  · exact hraw
  · exact absurd hlt (by decide)

end Intension
