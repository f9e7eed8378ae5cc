import LinkerNames.Proofs.Signature.Places
import LinkerNames.Proofs.Symbol.Image
import LinkerNames.Proofs.Token.Seams
/-!
# Blanks between tokens do not matter

Blanks can be put in at any seam of a text. It has the same lexemes, so it means the same symbol and
has the same linker name, or is rejected with the same message. Only places change, and with them
what is shown of the text.
-/

namespace LinkerNames

/-- The message says which lexeme it is, and not where it stands. -/
theorem Rejection.message_eq {why why' : Rejection} (h : why.token.Alike why'.token)
    (hexpected : why'.expected = why.expected) : why'.message = why.message := by
  unfold Rejection.message unexpectedMessage
  rw [h.kind, h.text, hexpected]

/-- A text means what any other text with its lexemes means. -/
theorem Symbol.ofText_of_lexemes {text text' : String} {s : Symbol}
    (h : (tokens text').map Token.toLexeme = (tokens text).map Token.toLexeme)
    (hs : ofText text = .ok s) : ofText text' = .ok s := by
  obtain ⟨hfits, hspellable, hwords⟩ := ofText_eq_ok_iff_words.1 hs
  exact ofText_eq_ok_iff_words.2
    ⟨hfits, hspellable, (words_eq_of_map_toLexeme h).trans hwords⟩

/-! ## Main theorem -/

/-- A text with blanks put in at any of its seams has the same lexemes. If the text is accepted,
both mean the same symbol and have the same linker name; if it is rejected, both are, with the same
message and the same expectations. -/
theorem respaced_alike (gap : Nat → Blanks) (text : String) :
    (tokens (respaced gap text)).map Token.toLexeme = (tokens text).map Token.toLexeme ∧
      (∀ s, Symbol.ofText text = .ok s → Symbol.ofText (respaced gap text) = .ok s ∧
        ∃ name, linkerName text = .ok name ∧ linkerName (respaced gap text) = .ok name) ∧
      ∀ why, parse text = .error (.rejected why) →
        ∃ why', parse (respaced gap text) = .error (.rejected why') ∧
          why'.message = why.message ∧ why'.expected = why.expected := by
  have hlexemes := map_toLexeme_tokens_respaced gap text
  refine ⟨hlexemes, ?_, ?_⟩
  · intro s hs
    have hs' := Symbol.ofText_of_lexemes hlexemes hs
    exact ⟨hs', _, (linkerName_of_ofText hs).2, (linkerName_of_ofText hs').2⟩
  · intro why hwhy
    obtain ⟨why', hparse, halike, hexpected⟩ := exists_rejection_of_alike hlexemes.symm hwhy
    exact ⟨why', hparse, Rejection.message_eq halike hexpected, hexpected⟩

/-- A signature with line breaks at all its seams, and a text that is none. -/
theorem respaced_alike_line_breaks :
    (∃ name, linkerName "a::f<int>(b &)const" = .ok name ∧
      linkerName (respaced (fun _ => ⟨['\r', '\n'], by decide⟩) "a::f<int>(b &)const") = .ok name) ∧
    ∃ why why', parse "f(int x)" = .error (.rejected why) ∧
      parse (respaced (fun _ => ⟨['\t'], by decide⟩) "f(int x)") = .error (.rejected why') ∧
      why'.message = why.message := by
  constructor
  · have hs : Symbol.ofText "a::f<int>(b &)const" = .ok (.typed (.function
        (.path [.type "a", .type "f", .generic [.typed (.type "int") []]])
        [.typed (.type "b") [.reference]]) [.const]) :=
      Except.eq_ok_of_toOption (by decide +kernel)
    exact ((respaced_alike _ _).2.1 _ hs).2
  · have herror : (parse "f(int x)").toOption.isNone = true := by decide +kernel
    cases h : parse "f(int x)" with
    | ok p =>
      rw [h] at herror
      cases herror
    | error e =>
      obtain ⟨why, rfl⟩ := exists_rejection h
      obtain ⟨why', hparse, hmessage, -⟩ := (respaced_alike _ _).2.2 why h
      exact ⟨why, why', rfl, hparse, hmessage⟩

end LinkerNames
