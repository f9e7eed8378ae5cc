import LinkerNames.Proofs.Signature.Derivation
import LinkerNames.Proofs.Symbol.Written
/-!
# Phrases written back

A phrase can be written back: its leaves as they were read, and between them the marks of its rule.
Each lexeme that is written comes with the phrases that begin there, so that the row says of each
phrase where it begins. `Yields` says of a row of tokens that such pieces were read at them.
-/

namespace LinkerNames

/-- A lexeme of a phrase that is written back, with the phrases that begin there, outer ones
first. -/
structure Piece where
  lexeme : Lexeme
  begins : List Phrase

/-- A mark between phrases; none begins there. -/
def Piece.mark (text : String) : Piece :=
  ⟨⟨.punctuation, text⟩, []⟩

/-- A phrase begins where the first of its pieces is. -/
def Phrase.begin (p : Phrase) : List Piece → List Piece
  | [] => []
  | piece :: pieces => ⟨piece.lexeme, p :: piece.begins⟩ :: pieces

/-- The lexemes of a word: three if it is a name of the standard library, otherwise one. -/
def wordLexemes (text : String) : List Lexeme :=
  match standardNames.find? fun name => "std::" ++ name = text with
  | some name => [⟨.identifier, "std"⟩, ⟨.punctuation, "::"⟩, ⟨.identifier, name⟩]
  | none => [⟨.identifier, text⟩]

/-- Put together, the lexemes of a word are its text. -/
theorem join_wordLexemes (text : String) :
    String.join ((wordLexemes text).map Lexeme.text) = text := by
  unfold wordLexemes
  split
  next name hname =>
    have htext := List.find?_some hname
    rw [← of_decide_eq_true htext]
    simp [String.join]
  next => simp [String.join]

/-- The pieces of a row of phrases, a comma between two. -/
def commaRow (parts : List (Rule × List Piece)) : List Piece :=
  (parts.flatMap fun part => .mark "," :: part.2).tail

/-- The pieces of the parts of a path, with `::` before all but the first; template arguments follow
at once. -/
def scopeRow (parts : List (Rule × List Piece)) : List Piece :=
  (parts.flatMap fun part => if part.1 = .generic then part.2 else .mark "::" :: part.2).tail

/-- How the parts of a phrase are put together, by its rule. -/
def Rule.pieces (rule : Rule) (text : String) (parts : List (Rule × List Piece)) : List Piece :=
  match rule with
  | .word => (wordLexemes text).map (⟨·, []⟩)
  | .const => [⟨⟨.keyword, "const"⟩, []⟩]
  | .pointer => [.mark "*"]
  | .reference => [.mark "&"]
  | .type | .element | .typedElement => parts.flatMap (·.2)
  | .path => scopeRow parts
  | .generic => .mark "<" :: commaRow parts ++ [.mark ">"]
  | .function =>
    match parts with
    | [] => []
    | name :: others =>
      name.2 ++ .mark "(" :: commaRow (others.filter (·.1 ≠ .const)) ++
        .mark ")" :: (others.filter (·.1 = .const)).flatMap (·.2)

mutual
/-- The row that a phrase is written back as. -/
def Phrase.written : Phrase → List Piece
  | ⟨rule, text, place, parts⟩ =>
    Phrase.begin ⟨rule, text, place, parts⟩ (rule.pieces text (writtenParts parts))

/-- The rows of the parts of a phrase, each with its rule. -/
def Phrase.writtenParts : List Phrase → List (Rule × List Piece)
  | [] => []
  | p :: ps => (p.rule, p.written) :: writtenParts ps
end

mutual
/-- A phrase and all that it is made of, outer ones first and from left to right. -/
def Phrase.nodes : Phrase → List Phrase
  | ⟨rule, text, place, parts⟩ => ⟨rule, text, place, parts⟩ :: nodesOfParts parts

/-- The phrases that some phrases are made of. -/
def Phrase.nodesOfParts : List Phrase → List Phrase
  | [] => []
  | p :: ps => p.nodes ++ nodesOfParts ps
end

/-- The marks that are written between phrases. -/
def markTexts : List String := ["::", ",", "(", ")", "<", ">", "*", "&"]

/-- Whether a phrase by this rule is a mark after an element or a function. -/
def Rule.IsMark (rule : Rule) : Prop :=
  rule ∈ [.const, .pointer, .reference]

/-- A piece was read at a token: it is the lexeme of the token, the phrases that begin there have
its place, and a mark has its text. -/
structure Piece.ReadAt (t : Token) (piece : Piece) : Prop where
  lexeme : t.toLexeme = piece.lexeme
  place : ∀ p ∈ piece.begins, p.place = t.place
  text : ∀ p ∈ piece.begins, p.rule.IsMark → p.text = t.text

/-- The tokens of the first row, up to where the second begins, are those that the pieces were read
at, and these phrases begin there. -/
structure Yields (pieces : List Piece) (nodes : List Phrase) (input rest : List Token) : Prop where
  taken : ∃ taken, input = taken ++ rest ∧ List.Forall₂ Piece.ReadAt taken pieces
  begins : pieces.flatMap (·.begins) = nodes

/-! ## Putting rows together -/

namespace Yields

variable {pieces pieces' : List Piece} {nodes nodes' : List Phrase} {i m r : List Token}

theorem nil : Yields [] [] r r :=
  ⟨⟨[], rfl, .nil⟩, rfl⟩

theorem append (h : Yields pieces nodes i m) (h' : Yields pieces' nodes' m r) :
    Yields (pieces ++ pieces') (nodes ++ nodes') i r := by
  obtain ⟨⟨taken, rfl, htaken⟩, rfl⟩ := h
  obtain ⟨⟨taken', rfl, htaken'⟩, rfl⟩ := h'
  exact ⟨⟨taken ++ taken', (List.append_assoc ..).symm, List.rel_append htaken htaken'⟩,
    List.flatMap_append⟩

theorem single {t : Token} {l : Lexeme} (h : t.toLexeme = l) : Yields [⟨l, []⟩] [] (t :: r) r :=
  ⟨⟨[t], rfl, .cons ⟨h, by simp, by simp⟩ .nil⟩, rfl⟩

theorem cons {t : Token} {l : Lexeme} (ht : t.toLexeme = l) (h : Yields pieces nodes m r) :
    Yields (⟨l, []⟩ :: pieces) nodes (t :: m) r :=
  (single ht).append h

/-- A phrase begins at the first of its tokens. -/
theorem begin {p : Phrase} (h : Yields pieces nodes i r) (hlt : r.length < i.length)
    (hplace : p.place = rowPlace i)
    (htext : p.rule.IsMark → p.text = ((i.head?.map (·.text)).getD "")) :
    Yields (p.begin pieces) (p :: nodes) i r := by
  obtain ⟨⟨taken, rfl, htaken⟩, rfl⟩ := h
  cases htaken with
  | nil => exact absurd hlt (Nat.lt_irrefl _)
  | cons ht hts =>
    refine ⟨⟨_, rfl, .cons ⟨ht.lexeme, ?_, ?_⟩ hts⟩, rfl⟩
    · simpa [hplace, rowPlace] using ht.place
    · simp only [List.mem_cons, forall_eq_or_imp]
      exact ⟨htext, ht.text⟩

end Yields

theorem commaRow_append {ps qs : List (Rule × List Piece)} (hp : ps ≠ []) (hq : qs ≠ []) :
    commaRow (ps ++ qs) = commaRow ps ++ .mark "," :: commaRow qs := by
  obtain ⟨p, ps, rfl⟩ := List.exists_cons_of_ne_nil hp
  obtain ⟨q, qs, rfl⟩ := List.exists_cons_of_ne_nil hq
  simp [commaRow]

theorem scopeRow_append {p q : Rule × List Piece} {ps qs : List (Rule × List Piece)}
    (hp : p.1 ≠ .generic) (hq : q.1 ≠ .generic) :
    scopeRow (p :: ps ++ q :: qs) = scopeRow (p :: ps) ++ .mark "::" :: scopeRow (q :: qs) := by
  simp [scopeRow, hp, hq]

namespace Phrase

theorem map_lexeme_begin (p : Phrase) (pieces : List Piece) :
    (p.begin pieces).map Piece.lexeme = pieces.map Piece.lexeme := by
  cases pieces <;> rfl

/-- A word is written as its text. -/
theorem join_written_of_word {p : Phrase} (h : p.rule = .word) :
    String.join (p.written.map (·.lexeme.text)) = p.text := by
  obtain ⟨rule, text, place, parts⟩ := p
  obtain rfl : rule = .word := h
  have hlexemes : (written ⟨.word, text, place, parts⟩).map Piece.lexeme = wordLexemes text := by
    rw [written, map_lexeme_begin, Rule.pieces, List.map_map]
    exact List.map_id _
  have htexts := congrArg (List.map Lexeme.text) hlexemes
  rw [List.map_map] at htexts
  exact (congrArg String.join htexts).trans (join_wordLexemes text)

theorem writtenParts_eq (ps : List Phrase) :
    writtenParts ps = ps.map fun p => (p.rule, p.written) := by
  induction ps with
  | nil => rfl
  | cons p ps ih => rw [writtenParts, ih, List.map_cons]

theorem nodesOfParts_eq (ps : List Phrase) : nodesOfParts ps = ps.flatMap nodes := by
  induction ps with
  | nil => rfl
  | cons p ps ih => rw [nodesOfParts, ih, List.flatMap_cons]

theorem writtenParts_append (ps qs : List Phrase) :
    writtenParts (ps ++ qs) = writtenParts ps ++ writtenParts qs := by
  simp [writtenParts_eq]

theorem flatMap_writtenParts (ps : List Phrase) :
    (writtenParts ps).flatMap (·.2) = ps.flatMap written := by
  rw [writtenParts_eq, List.flatMap_map]

/-- A branch is written as its parts are put together, and begins with them. -/
theorem yields_branch {rule : Rule} {place : Place} {parts : List Phrase} {i r : List Token}
    (h : Yields (rule.pieces "" (writtenParts parts)) (parts.flatMap nodes) i r)
    (hplace : place = rowPlace i) (hlt : r.length < i.length) (hrule : ¬ rule.IsMark) :
    Yields ([branch rule place parts].flatMap written) ([branch rule place parts].flatMap nodes)
      i r := by
  rw [List.flatMap_singleton, List.flatMap_singleton, branch, written, nodes, nodesOfParts_eq]
  exact h.begin hlt hplace (absurd · hrule)

end Phrase

/-! ## Leaves -/

theorem Lexeme.ofText_mark : ∀ w ∈ markTexts, Lexeme.ofText w = ⟨.punctuation, w⟩ := by
  decide +kernel

theorem Lexeme.ofText_const : Lexeme.ofText "const" = ⟨.keyword, "const"⟩ := by
  decide +kernel

theorem Faithful.toLexeme_eq {row : List Token} {t : Token} {w : String} (h : Faithful row)
    (ht : t ∈ row) (htext : t.text = w) : t.toLexeme = .ofText w := by
  rw [h t ht, htext]

theorem Faithful.mark {row : List Token} {t : Token} {w : String} (h : Faithful row)
    (ht : t ∈ row) (htext : t.text = w) (hw : w ∈ markTexts) : t.toLexeme = ⟨.punctuation, w⟩ := by
  rw [h.toLexeme_eq ht htext, Lexeme.ofText_mark w hw]

/-- A word that is no name of the standard library is one lexeme. -/
theorem wordLexemes_of_isName {text : String} (h : IsName text) :
    wordLexemes text = [⟨.identifier, text⟩] := by
  have hnone : (standardNames.find? fun name => "std::" ++ name = text) = none := by
    rw [List.find?_eq_none]
    intro name hname heq
    exact h.not_isStandard ⟨name, hname, (of_decide_eq_true heq).symm⟩
  rw [wordLexemes, hnone]

theorem wordLexemes_standard : ∀ name ∈ standardNames, wordLexemes ("std::" ++ name) =
    [⟨.identifier, "std"⟩, ⟨.punctuation, "::"⟩, ⟨.identifier, name⟩] := by
  decide +kernel

namespace Phrase

variable {i r : List Token}

theorem yields_leaf {rule : Rule} {t : Token} (h : rule.pieces t.text [] = [⟨t.toLexeme, []⟩]) :
    Yields (leaf rule t).written (leaf rule t).nodes (t :: r) r := by
  have hbegin := (Yields.single (r := r) (rfl : t.toLexeme = _)).begin (p := leaf rule t)
    (by simp) rfl (fun _ => rfl)
  rwa [← h] at hbegin

/-- Leaves are written as the tokens that they stand for. -/
theorem yields_leaves {ts : List Token} {leaves : List Phrase}
    (h : List.Forall₂ (fun t p => ∃ rule : Rule, p = leaf rule t ∧
      rule.pieces t.text [] = [⟨t.toLexeme, []⟩]) ts leaves) :
    Yields (leaves.flatMap written) (leaves.flatMap nodes) (ts ++ r) r := by
  induction h with
  | nil => exact .nil
  | cons hp _ ih =>
    obtain ⟨rule, rfl, hrule⟩ := hp
    exact (yields_leaf hrule).append ih

theorem pieces_word {t : Token} (hk : t.kind = .identifier) (h : IsName t.text) :
    Rule.word.pieces t.text [] = [⟨t.toLexeme, []⟩] := by
  rw [Rule.pieces, wordLexemes_of_isName h, List.map_singleton, ← hk]

theorem pieces_mark {t : Token} {p : Phrase} (ht : t.toLexeme = .ofText t.text)
    (h : MarkLeaf t p) :
    ∃ rule : Rule, p = leaf rule t ∧ rule.pieces t.text [] = [⟨t.toLexeme, []⟩] := by
  rw [ht]
  cases h with
  | const htext =>
    refine ⟨.const, rfl, ?_⟩
    rw [Rule.pieces, htext, Lexeme.ofText_const]
  | pointer htext =>
    refine ⟨.pointer, rfl, ?_⟩
    rw [Rule.pieces, htext, Lexeme.ofText_mark _ (by simp [markTexts])]
    rfl
  | reference htext =>
    refine ⟨.reference, rfl, ?_⟩
    rw [Rule.pieces, htext, Lexeme.ofText_mark _ (by simp [markTexts])]
    rfl

theorem yields_marks {marks : List Token} {after : List Phrase} (hi : Faithful marks)
    (h : List.Forall₂ MarkLeaf marks after) :
    Yields (after.flatMap written) (after.flatMap nodes) (marks ++ r) r := by
  apply yields_leaves
  induction h with
  | nil => exact .nil
  | cons ht _ ih =>
    exact .cons (pieces_mark (hi _ List.mem_cons_self) ht)
      (ih (hi.mono (List.subset_cons_self _ _)))

/-- A function is written as its name, its arguments, and the `const` after them. -/
theorem pieces_function (name : Phrase) {args : List Phrase} (marks : List Phrase)
    (hargs : ∀ a ∈ args, a.rule ≠ .const) (hmarks : ∀ m ∈ marks, m.rule = .const) :
    Rule.function.pieces "" (writtenParts (name :: (args ++ marks))) =
      name.written ++ (.mark "(" :: (commaRow (writtenParts args) ++ [.mark ")"]) ++
        marks.flatMap written) := by
  have hparts (keep : Rule → Bool) (ps : List Phrase) :
      (writtenParts ps).filter (fun part => keep part.1) =
        writtenParts (ps.filter fun p => keep p.rule) := by
    simp only [writtenParts_eq, List.filter_map]
    rfl
  have hargs' : (args ++ marks).filter (fun p => decide (p.rule ≠ .const)) = args := by
    rw [List.filter_append, List.filter_eq_self.2 (by simpa using hargs),
      List.filter_eq_nil_iff.2 (by simpa using hmarks), List.append_nil]
  have hmarks' : (args ++ marks).filter (fun p => decide (p.rule = .const)) = marks := by
    rw [List.filter_append, List.filter_eq_nil_iff.2 (by simpa using hargs),
      List.filter_eq_self.2 (by simpa using hmarks), List.nil_append]
  rw [writtenParts, Rule.pieces, hparts (fun rule => decide (rule ≠ .const)),
    hparts (fun rule => decide (rule = .const)), hargs', hmarks', flatMap_writtenParts]
  simp

end Phrase

end LinkerNames
