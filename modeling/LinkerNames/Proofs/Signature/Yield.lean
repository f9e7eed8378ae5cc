import LinkerNames.Proofs.Signature.Pieces
import LinkerNames.Proofs.Signature.Soundness
/-!
# What readers take

What a reader takes is the row of what it answers, lexeme by lexeme, and each phrase has the place
of the token that it begins with (`readers_take_what_they_answer`). We show it along the derivation
that the answer has: each category joins the rows of its phrases in its own way.
-/

namespace LinkerNames

/-! ## What is derived is written -/

/-- The pieces of phrases of a category. -/
def Category.pieces (cat : Category) (ps : List Phrase) : List Piece :=
  match cat with
  | .segment | .segments => scopeRow (Phrase.writtenParts ps)
  | .typedElement | .elements => commaRow (Phrase.writtenParts ps)
  | .list opening closing =>
    ⟨.ofText opening, []⟩ :: (commaRow (Phrase.writtenParts ps) ++ [⟨.ofText closing, []⟩])
  | .type | .generic | .path | .element | .function => ps.flatMap Phrase.written

/-- The brackets of a category have a text. -/
def Category.HasBrackets : Category → Prop
  | .list opening closing => opening ≠ "" ∧ closing ≠ ""
  | _ => True

namespace Derives

variable {best : Bool} {i r : List Token} {ps : List Phrase}

/-- The segments of a path begin with a type. -/
theorem eq_cons_of_segment (h : Derives best .segment i r ps) :
    ∃ p others, ps = p :: others ∧ p.rule = .type := by
  cases h with
  | segment h | segmentGeneric h _ =>
    obtain ⟨place, words, rfl⟩ := h.eq_singleton_of_type
    exact ⟨_, _, rfl, rfl⟩

theorem eq_cons_of_segments (h : Derives best .segments i r ps) :
    ∃ p others, ps = p :: others ∧ p.rule = .type := by
  cases h with
  | last h => exact h.eq_cons_of_segment
  | scope h _ _ =>
    obtain ⟨p, others, rfl, hp⟩ := h.eq_cons_of_segment
    exact ⟨p, _, rfl, hp⟩

theorem faithful {cat : Category} (h : Derives best cat i r ps) (hi : Faithful i) : Faithful r :=
  hi.mono h.suffix.subset

theorem ne_nil_of_typedElement (h : Derives best .typedElement i r ps) : ps ≠ [] := by
  cases h
  simp

theorem ne_nil_of_elements (h : Derives best .elements i r ps) : ps ≠ [] := by
  cases h with
  | single h => exact h.ne_nil_of_typedElement
  | comma h _ _ => simp [h.ne_nil_of_typedElement]

/-- What stands in a list is no mark. -/
theorem rule_of_mem_elements (h : Derives best .elements i r ps) :
    ∀ p ∈ ps, p.rule = .typedElement := by
  generalize hcat : Category.elements = cat at h
  induction h with
  | single h =>
    cases h
    simp [Phrase.branch]
  | comma h _ _ _ ih' =>
    cases h
    simpa [Phrase.branch] using ih' rfl
  | _ => cases hcat

theorem rule_ne_const_of_mem_list {opening closing : String}
    (h : Derives best (.list opening closing) i r ps) : ∀ p ∈ ps, p.rule ≠ .const := by
  cases h with
  | empty => simp
  | list _ h _ =>
    intro p hp
    simp [h.rule_of_mem_elements p hp]

/-- A type is written as the words that it was read from. -/
theorem yields_of_type (h : Derives best .type i r ps) (hi : Faithful i) :
    Yields (ps.flatMap Phrase.written) (ps.flatMap Phrase.nodes) i r := by
  have hlt := h.length_lt
  have hrule : ¬ Rule.type.IsMark := by simp [Rule.IsMark]
  have hname {t : Token} (ht : t ∈ i) (hk : t.kind = .identifier) : IsName t.text :=
    (hi.named t ht hk).1
  have hwords (ts : List Token) (hrow : i = ts ++ r) (hts : ∀ t ∈ ts, t.kind = .identifier) :
      Yields (Rule.type.pieces "" (Phrase.writtenParts (ts.map (.leaf .word))))
        ((ts.map (Phrase.leaf .word)).flatMap Phrase.nodes) (ts ++ r) r := by
    rw [Rule.pieces, Phrase.flatMap_writtenParts]
    apply Phrase.yields_leaves
    rw [List.forall₂_map_right_iff, List.forall₂_same]
    intro t ht
    have hmem : t ∈ i := hrow ▸ List.mem_append_left r ht
    exact ⟨.word, rfl, Phrase.pieces_word (hts t ht) (hname hmem (hts t ht))⟩
  cases h with
  | @standard root scope name _ hs =>
    cases hs with
    | mk hk hroot hscope hk' hmem _ =>
      have hroot' : root.toLexeme = ⟨.identifier, "std"⟩ := by rw [← hk, ← hroot]
      have hscope' := hi.mark (by simp) hscope (by simp [markTexts])
      have hname' : name.toLexeme = ⟨.identifier, name.text⟩ := by rw [← hk']
      have hthree : Yields (Rule.word.pieces (root.text ++ scope.text ++ name.text) []) []
          (root :: scope :: name :: r) r := by
        rw [hroot, hscope, Rule.pieces]
        change Yields ((wordLexemes ("std::" ++ name.text)).map (⟨·, []⟩)) _ _ _
        rw [wordLexemes_standard _ hmem]
        exact .cons hroot' (.cons hscope' (.single hname'))
      let word : Phrase := ⟨.word, root.text ++ scope.text ++ name.text, root.place, []⟩
      have hword : Yields word.written word.nodes (root :: scope :: name :: r) r :=
        hthree.begin hlt rfl (by simp [Rule.IsMark])
      have htype : Yields (Rule.type.pieces "" (Phrase.writtenParts [word]))
          ([word].flatMap Phrase.nodes) (root :: scope :: name :: r) r := by
        simpa [Rule.pieces, Phrase.flatMap_writtenParts] using hword
      exact Phrase.yields_branch htype rfl hlt hrule
  | @builtin words _ hw =>
    have htype := hwords words rfl fun t ht =>
      (Token.isBuiltinWord_iff.1 (hw.isBuiltinWord t ht)).1
    obtain ⟨t, ts, rfl⟩ := List.exists_cons_of_ne_nil hw.ne_nil
    exact Phrase.yields_branch htype rfl hlt hrule
  | @plain t _ hk =>
    have htype := hwords [t] rfl (by simpa using hk)
    exact Phrase.yields_branch htype rfl hlt hrule

theorem pieces_list {opening closing : String} (ho : opening ∈ markTexts)
    (hc : closing ∈ markTexts) :
    (Category.list opening closing).pieces ps =
      .mark opening :: (commaRow (Phrase.writtenParts ps) ++ [.mark closing]) := by
  rw [Category.pieces, Lexeme.ofText_mark opening ho, Lexeme.ofText_mark closing hc]
  rfl

/-- The tokens that are derived as some phrases are those that the phrases are written as. -/
theorem yields {cat : Category} (h : Derives best cat i r ps) (hi : Faithful i) :
    Yields (cat.pieces ps) (ps.flatMap Phrase.nodes) i r := by
  induction h with
  | standard hs => exact (show Derives best .type _ _ _ from .standard hs).yields_of_type hi
  | builtin hw hmax => exact (Derives.builtin hw hmax).yields_of_type hi
  | plain hk hw hs => exact (Derives.plain hk hw hs).yields_of_type hi
  | generic h ih =>
    refine Phrase.yields_branch ?_ rfl h.length_lt (by simp [Rule.IsMark])
    have hlist := ih hi
    rwa [pieces_list (by simp [markTexts]) (by simp [markTexts])] at hlist
  | segment h ih =>
    obtain ⟨place, words, rfl⟩ := h.eq_singleton_of_type
    have htype := ih hi
    simpa [Category.pieces, scopeRow, Phrase.writtenParts, Phrase.branch] using htype
  | segmentGeneric h h' ih ih' =>
    obtain ⟨place, words, rfl⟩ := h.eq_singleton_of_type
    have hboth := (ih hi).append (ih' (h.faithful hi))
    cases h' with
    | generic =>
      simpa [Category.pieces, scopeRow, Phrase.writtenParts, Phrase.branch] using hboth
  | last h ih => exact ih hi
  | scope h hmark h' ih ih' =>
    have hrest := h.faithful hi
    have hscope := hrest.mark List.mem_cons_self hmark (by simp [markTexts])
    have hboth := (ih hi).append (.cons hscope (ih' (hrest.mono (List.subset_cons_self _ _))))
    obtain ⟨p, ps, rfl, hp⟩ := h.eq_cons_of_segment
    obtain ⟨q, qs, rfl, hq⟩ := h'.eq_cons_of_segments
    rw [List.flatMap_append]
    change Yields (scopeRow _) _ _ _
    rw [Phrase.writtenParts_append, Phrase.writtenParts, Phrase.writtenParts,
      scopeRow_append (by simp [hp]) (by simp [hq])]
    exact hboth
  | path h ih => exact Phrase.yields_branch (ih hi) rfl h.length_lt (by simp [Rule.IsMark])
  | elementType h ih | elementPath h _ ih =>
    refine Phrase.yields_branch ?_ rfl h.length_lt (by simp [Rule.IsMark])
    simpa [Rule.pieces, Phrase.flatMap_writtenParts, Category.pieces] using ih hi
  | @typedElement input marks rest element after h hm ih =>
    have hrest := (h.faithful hi).mono (List.subset_append_left marks rest)
    have hmarks := Phrase.yields_marks (r := rest) hrest hm
    have hboth := (ih hi).append hmarks
    have hparts : Yields (Rule.typedElement.pieces "" (Phrase.writtenParts (element :: after)))
        ((element :: after).flatMap Phrase.nodes) input rest := by
      simpa [Rule.pieces, Phrase.flatMap_writtenParts, Category.pieces] using hboth
    have hbranch := Phrase.yields_branch hparts rfl (Derives.typedElement h hm).length_lt
      (by simp [Rule.IsMark])
    simpa [Category.pieces, commaRow, Phrase.writtenParts] using hbranch
  | single _ ih => exact ih hi
  | comma h hmark h' ih ih' =>
    have hrest := h.faithful hi
    have hcomma := hrest.mark List.mem_cons_self hmark (by simp [markTexts])
    have hboth := (ih hi).append (.cons hcomma (ih' (hrest.mono (List.subset_cons_self _ _))))
    rw [List.flatMap_append]
    change Yields (commaRow _) _ _ _
    rw [Phrase.writtenParts_append, commaRow_append
      (by simpa [Phrase.writtenParts_eq] using h.ne_nil_of_typedElement)
      (by simpa [Phrase.writtenParts_eq] using h'.ne_nil_of_elements)]
    exact hboth
  | empty ho hc =>
    exact .cons (hi.toLexeme_eq (by simp) ho) (.single (hi.toLexeme_eq (by simp) hc))
  | list ho h hc ih =>
    have hinside := hi.mono (List.subset_cons_self _ _)
    have hlast := (h.faithful hinside).toLexeme_eq List.mem_cons_self hc
    have hboth := (ih hinside).append (.single hlast)
    rw [List.append_nil] at hboth
    exact .cons (hi.toLexeme_eq List.mem_cons_self ho) hboth
  | @function _ _ _ name _ h h' ih ih' =>
    refine Phrase.yields_branch ?_ rfl (Derives.function h h').length_lt (by simp [Rule.IsMark])
    have hboth := (ih hi).append (ih' (h.faithful hi))
    rw [pieces_list (by simp [markTexts]) (by simp [markTexts])] at hboth
    have hpieces := Phrase.pieces_function name [] h'.rule_ne_const_of_mem_list (by simp)
    rw [List.append_nil] at hpieces
    rw [hpieces]
    simpa [Category.pieces] using hboth
  | @constFunction _ _ rest mark name _ h h' hmark ih ih' =>
    have hi' := h.faithful hi
    have hconst : mark.toLexeme = ⟨.keyword, "const"⟩ := by
      rw [(h'.faithful hi').toLexeme_eq List.mem_cons_self hmark, Lexeme.ofText_const]
    have hleaf : Yields (Phrase.leaf .const mark).written (Phrase.leaf .const mark).nodes
        (mark :: rest) rest :=
      Phrase.yields_leaf (by rw [Rule.pieces, hconst])
    refine Phrase.yields_branch ?_ rfl (Derives.constFunction h h' hmark).length_lt
      (by simp [Rule.IsMark])
    have hboth := ((ih hi).append (ih' hi')).append hleaf
    rw [pieces_list (by simp [markTexts]) (by simp [markTexts])] at hboth
    rw [List.cons_append, Phrase.pieces_function name [.leaf .const mark]
      h'.rule_ne_const_of_mem_list (by simp [Phrase.leaf])]
    simpa [Category.pieces] using hboth

end Derives

/-! ## Positions in a text -/

/-- A position in the tokens of a text: some are ahead, perhaps none, and the last of all ends the
input. -/
structure Cursor.IsIn (c : Cursor) (text : String) : Prop where
  ahead : c.ahead <:+ tokens text
  finish : (tokens text).getLast? = some c.finish

theorem Cursor.IsIn.toLexeme_finish {c : Cursor} {text : String} (h : c.IsIn text) :
    c.finish.toLexeme = .finish := by
  obtain ⟨row, last, htokens, hlast, -⟩ := tokens_eq_append_finish text
  have hfinish := h.finish
  rw [htokens, List.getLast?_concat, Option.some.injEq] at hfinish
  rw [← hfinish, hlast]

theorem Cursor.IsIn.faithful {c : Cursor} {text : String} (h : c.IsIn text) : Faithful c.ahead :=
  (faithful_tokens text).mono h.ahead.subset

namespace Reader

/-- The readers that answer a phrase. -/
def phraseReaders : List (Reader Phrase) :=
  [function, path, generic, typedElement, element, type]

theorem exists_sound {x : Reader Phrase} (hx : x ∈ phraseReaders) :
    ∃ cat : Category, Sound x cat ([·]) ∧ cat.HasBrackets ∧
      ∀ p, cat.pieces [p] = p.written := by
  simp only [phraseReaders, List.mem_cons, List.not_mem_nil, or_false] at hx
  rcases hx with rfl | rfl | rfl | rfl | rfl | rfl
  · exact ⟨.function, sound_function, trivial, fun p => by simp [Category.pieces]⟩
  · exact ⟨.path, sound_path, trivial, fun p => by simp [Category.pieces]⟩
  · exact ⟨.generic, fun i fin a c hfin h => sound_genericWith sound_path _ i fin a c hfin h,
      trivial, fun p => by simp [Category.pieces]⟩
  · exact ⟨.typedElement, sound_typedElementWith sound_path, trivial,
      fun p => by simp [Category.pieces, commaRow, Phrase.writtenParts]⟩
  · exact ⟨.element, sound_elementWith sound_path, trivial, fun p => by simp [Category.pieces]⟩
  · exact ⟨.type, sound_type, trivial, fun p => by simp [Category.pieces]⟩

end Reader

/-! ## Main theorem -/

/-- A reader that answers a phrase at some position of a text has taken tokens, and they are those
that the phrase is written as. Each phrase in the answer begins at one of them and has its place,
each mark has its text, and each word has the texts of its tokens. -/
theorem readers_take_what_they_answer {text : String} {c c' : Cursor} {x : Reader Phrase}
    {p : Phrase} (hc : c.IsIn text) (hx : x ∈ Reader.phraseReaders) (h : x c = .ok p c') :
    ∃ taken, taken ≠ [] ∧ c.ahead = taken ++ c'.ahead ∧ c'.finish = c.finish ∧
      List.Forall₂ Piece.ReadAt taken p.written ∧ p.written.flatMap (·.begins) = p.nodes ∧
      ∀ w ∈ p.nodes, w.rule = .word → String.join (w.written.map (·.lexeme.text)) = w.text := by
  obtain ⟨cat, hsound, -, hpieces⟩ := Reader.exists_sound hx
  obtain ⟨r, rfl, hd⟩ := hsound c.ahead c.finish p c' hc.toLexeme_finish h
  obtain ⟨⟨taken, htaken, hread⟩, hbegins⟩ := hd.yields hc.faithful
  rw [hpieces] at hread hbegins
  rw [htaken] at hd
  exact ⟨taken, hd.taken_ne_nil, htaken, rfl, hread, by simpa using hbegins,
    fun w _ hw => Phrase.join_written_of_word hw⟩

/-- A typed element in the midst of a text: its type is a name of the standard library. -/
theorem readers_take_what_they_answer_standard : ∃ p c' taken,
    Reader.typedElement ⟨(tokens "f(std::string const&)").drop 2, ⟨.finish, ⟨0, 21⟩⟩⟩ =
        .ok p c' ∧
      List.Forall₂ Piece.ReadAt taken p.written ∧
      taken.map (·.text) = ["std", "::", "string", "const", "&"] := by
  have hin : Cursor.IsIn ⟨(tokens "f(std::string const&)").drop 2, ⟨.finish, ⟨0, 21⟩⟩⟩
      "f(std::string const&)" :=
    ⟨List.drop_suffix _ _, by decide +kernel⟩
  have hruns : (match Reader.typedElement
      ⟨(tokens "f(std::string const&)").drop 2, ⟨.finish, ⟨0, 21⟩⟩⟩ with
      | .ok _ c' => c'.ahead.map (·.text) == [")", ""]
      | .error _ _ => false) = true := by
    decide +kernel
  split at hruns
  next p c' h =>
    obtain ⟨taken, -, hahead, -, hread, -⟩ :=
      readers_take_what_they_answer hin (by simp [Reader.phraseReaders]) h
    refine ⟨p, c', taken, h, hread, ?_⟩
    have hrow : ((tokens "f(std::string const&)").drop 2).map (·.text) =
        ["std", "::", "string", "const", "&"] ++ [")", ""] := by
      decide +kernel
    change (tokens "f(std::string const&)").drop 2 = _ at hahead
    rw [hahead, List.map_append, eq_of_beq hruns] at hrow
    exact List.append_cancel_right hrow
  next => cases hruns

end LinkerNames
