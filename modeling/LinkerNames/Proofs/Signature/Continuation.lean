import LinkerNames.Proofs.Signature.Exchange
import LinkerNames.Proofs.Signature.Stuck
/-!
# Where a reader gets stuck it could have gone on

What was read before a reader gets stuck is the beginning of an item, and with each thing that could
have come next there is a row of tokens that makes the item whole (`Stuck.continues`). The row is
short: a name where one is missing, and the brackets that are still open.
-/

namespace LinkerNames

/-! ## Tokens for words -/

/-- The token that a word is, wherever it stands. -/
def Token.ofWord (word : String) : Token :=
  ⟨.ofText word, .start⟩

theorem Token.text_ofWord {word : String} (h : Lexeme.IsWord word) : (ofWord word).text = word :=
  h.text_ofText

theorem faithful_ofWord {word : String} (h : Lexeme.IsWord word) : Faithful [.ofWord word] := by
  intro t ht
  rw [List.mem_singleton.1 ht, Token.text_ofWord h]
  rfl

theorem faithful_nil : Faithful [] := by
  simp [Faithful]

theorem Faithful.append {row row' : List Token} (h : Faithful row) (h' : Faithful row') :
    Faithful (row ++ row') :=
  fun t ht => (List.mem_append.1 ht).elim (h t) (h' t)

/-- A name that is no keyword and no word of a builtin type. -/
theorem isWord_name : Lexeme.IsWord "x" ∧ (Token.ofWord "x").kind = .identifier ∧
    (Token.ofWord "x").text ∉ builtinWords := by
  decide +kernel

theorem isWord_closing {closing : String} (h : Reader.IsClosing closing) :
    Lexeme.IsWord closing := by
  rcases h with rfl | rfl <;> exact Symbol.isWord_mark _ (by simp)

/-- The end of the input, wherever it is. -/
def Token.finish : Token :=
  ⟨.finish, .start⟩

theorem faithful_finish : Faithful [.finish] := by
  intro t ht
  rw [List.mem_singleton.1 ht]
  exact (congrArg (List.headD · Lexeme.finish) Lexeme.scan_nil).symm

/-- Brackets with nothing in them, and the end of the input. -/
theorem faithful_round : Faithful [.ofWord "(", .ofWord ")", .finish] :=
  (faithful_ofWord (Symbol.isWord_mark _ (by simp))).append
    ((faithful_ofWord (Symbol.isWord_mark _ (by simp))).append faithful_finish)

namespace Item

/-! ## Beginnings of items -/

/-- Behind what was taken of an item, these tokens make it whole. -/
def Completes (taken more : List Token) : Item → Prop
  | .segments => ∀ z, ∃ ps, Derives false .segments (taken ++ (more ++ z)) z ps
  | .elements closing => ∃ front last, more = front ++ [last] ∧ last.text = closing ∧
      ∀ z, ∃ ps, Derives false .elements (taken ++ (front ++ last :: z)) (last :: z) ps
  | .signature => ∃ front last, more = front ++ [last] ∧ last.toLexeme = .finish ∧
      ∃ ps, Derives false .function (taken ++ more) [last] ps

/-- Each of the things expected can come after the first row, up to where the second begins, and be
followed by tokens that make the item whole. -/
def Continues (item : Item) (i r : List Token) (es : List Expected) : Prop :=
  ∃ taken, i = taken ++ r ∧ ∀ x ∈ es, ∃ t more, x.admits t = true ∧ Faithful (t :: more) ∧
    item.Completes taken (t :: more)

/-- An item goes on where a part of it does, if tokens that make the part whole make the item whole
together with those behind the part. -/
theorem Continues.of_part {item part : Item} {i m r : List Token} {es : List Expected}
    (h : part.Continues m r es) (front behind : List Token) (hi : i = front ++ m)
    (hbehind : Faithful behind)
    (hwhole : ∀ taken more, part.Completes taken more →
      item.Completes (front ++ taken) (more ++ behind)) : item.Continues i r es := by
  obtain ⟨taken, rfl, hes⟩ := h
  refine ⟨front ++ taken, by rw [hi, List.append_assoc], fun x hx => ?_⟩
  obtain ⟨t, more, hadmits, hmore, hcompletes⟩ := hes x hx
  exact ⟨t, more ++ behind, hadmits, hmore.append hbehind, hwhole _ _ hcompletes⟩

end Item

/-! ## The shortest ways to go on -/

namespace Derives

variable {i r : List Token}

theorem typedElement_of_path {p : Phrase} (h : Derives false .path i r [p]) :
    ∃ ps, Derives false .typedElement i r ps :=
  ⟨_, @typedElement false i [] r _ [] (.elementPath h (by simp)) .nil⟩

theorem type_of_name (z : List Token) : ∃ p, Derives false .type (.ofWord "x" :: z) z [p] :=
  ⟨_, .plain isWord_name.2.1 isWord_name.2.2 (by simp)⟩

theorem elements_of_name (z : List Token) :
    ∃ ps, Derives false .elements (.ofWord "x" :: z) z ps := by
  obtain ⟨p, hp⟩ := type_of_name z
  obtain ⟨ps, hps⟩ := typedElement_of_path (.path (.last (.segment hp)))
  exact ⟨ps, .single hps⟩

theorem list_of_nothing (z : List Token) :
    Derives false (.list "(" ")") (.ofWord "(" :: .ofWord ")" :: z) z [] :=
  .empty (Token.text_ofWord (Symbol.isWord_mark _ (by simp)))
    (Token.text_ofWord (Symbol.isWord_mark _ (by simp)))

end Derives

/-! ## Main theorem -/

open Item in
/-- Where reading an item is stuck, the item goes on with each thing that was expected. -/
theorem Stuck.continues {fin : Token} {item : Item} {i r : List Token} {es : List Expected}
    (h : Stuck fin item i r es) : item.Continues i r es := by
  -- Each part around the place adds what closes it behind the tokens found for the part inside.
  induction h with
  | name =>
    refine ⟨[], rfl, fun x hx => ?_⟩
    rw [List.mem_singleton.1 hx]
    obtain ⟨hword, hkind, hplain⟩ := isWord_name
    exact ⟨.ofWord "x", [], by simp [Expected.admits, hkind], faithful_ofWord hword,
      fun z => ⟨_, .last (.segment (.plain hkind hplain (by simp)))⟩⟩
  | @arguments i m _ first head _ hhead hfirst _ _ ih =>
    obtain ⟨front, rfl⟩ := hhead.suffix
    refine ih.of_part (front ++ [first]) [] (by simp) faithful_nil fun taken more hmore z => ?_
    obtain ⟨before, last, rfl, hlast, hmore⟩ := hmore
    obtain ⟨args, hargs⟩ := hmore z
    have hhead' : Derives false .type (front ++ first :: (taken ++ (before ++ last :: z))) _ head :=
      hhead.any.exchange_append trivial .of_head_any
    exact ⟨_, by simpa using
      Derives.last (.segmentGeneric hhead' (.generic (.list hfirst hargs hlast)))⟩
  | @scope i m _ mark parts _ hparts hmark _ ih =>
    obtain ⟨front, rfl⟩ := hparts.suffix
    refine ih.of_part (front ++ [mark]) [] (by simp) faithful_nil fun taken more hmore z => ?_
    obtain ⟨others, hothers⟩ := hmore z
    have hparts' : Derives false .segment (front ++ mark :: (taken ++ (more ++ z))) _ parts :=
      hparts.any.exchange_append trivial .of_head_any
    exact ⟨_, by simpa using Derives.scope hparts' hmark hothers⟩
  | @element closing _ _ _ hc _ ih =>
    have hword := isWord_closing hc
    refine ih.of_part [] [.ofWord closing] rfl (faithful_ofWord hword) fun taken more hmore => ?_
    refine ⟨more, _, rfl, Token.text_ofWord hword, fun z => ?_⟩
    obtain ⟨parts, hparts⟩ := hmore (.ofWord closing :: z)
    obtain ⟨ps, hps⟩ := Derives.typedElement_of_path (.path hparts)
    exact ⟨ps, .single hps⟩
  | @separator closing i marks r p after hc hp _ hmarks _ _ _ =>
    obtain ⟨front, rfl⟩ := hp.suffix
    have htyped (t : Token) (z : List Token) (ht : Reader.IsClosing t.text ∨ t.text = ",") :
        ∃ ps, Derives false .typedElement (front ++ marks ++ t :: z) (t :: z) ps := by
      have hends := Reader.ends_marks hmarks (Reader.stops_separator (r := z) ht).1.ends
      have hp' := hp.any.exchange_append trivial (.of_ends hends)
      exact ⟨_, by simpa using Derives.typedElement (.elementPath hp' (by simp)) hmarks⟩
    have hcomma : Lexeme.IsWord "," := Symbol.isWord_mark _ (by simp)
    have hclosing := isWord_closing hc
    have hlast : (Token.ofWord closing).text = closing := Token.text_ofWord hclosing
    refine ⟨front ++ marks, by simp, fun x hx => ?_⟩
    -- A comma wants another element before the bracket, the bracket nothing.
    rcases List.mem_cons.1 hx with rfl | hx
    · refine ⟨.ofWord ",", [.ofWord "x", .ofWord closing],
        by simp [Expected.admits, Token.text_ofWord hcomma],
        (faithful_ofWord hcomma).append ((faithful_ofWord isWord_name.1).append
          (faithful_ofWord hclosing)), [.ofWord ",", .ofWord "x"], _, rfl, hlast, fun z => ?_⟩
      obtain ⟨ps, hps⟩ := htyped (.ofWord ",") (.ofWord "x" :: .ofWord closing :: z)
        (.inr (Token.text_ofWord hcomma))
      obtain ⟨others, hothers⟩ := Derives.elements_of_name (.ofWord closing :: z)
      exact ⟨_, .comma hps (Token.text_ofWord hcomma) hothers⟩
    · rw [List.mem_singleton.1 hx]
      refine ⟨.ofWord closing, [], by simp [Expected.admits, hlast], faithful_ofWord hclosing,
        [], _, rfl, hlast, fun z => ?_⟩
      obtain ⟨ps, hps⟩ := htyped (.ofWord closing) z (.inl (by rwa [hlast]))
      exact ⟨ps, .single hps⟩
  | @comma closing i m _ mark ps _ _ hps hmark _ ih =>
    obtain ⟨front, rfl⟩ := hps.suffix
    refine ih.of_part (front ++ [mark]) [] (by simp) faithful_nil fun taken more hmore => ?_
    obtain ⟨before, last, rfl, hlast, hmore⟩ := hmore
    refine ⟨before, last, List.append_nil _, hlast, fun z => ?_⟩
    obtain ⟨others, hothers⟩ := hmore z
    have hps' : Derives false .typedElement (front ++ mark :: (taken ++ (before ++ last :: z))) _
        ps := hps.any.exchange_append trivial .of_head_any
    exact ⟨_, by simpa using Derives.comma hps' hmark hothers⟩
  | callee _ ih =>
    refine ih.of_part [] [.ofWord "(", .ofWord ")", .finish] rfl faithful_round
      fun taken more hmore => ?_
    obtain ⟨parts, hparts⟩ := hmore [.ofWord "(", .ofWord ")", .finish]
    exact ⟨more ++ [.ofWord "(", .ofWord ")"], .finish, by simp, rfl,
      _, .function (.path hparts) (.list_of_nothing _)⟩
  | @opening i r name hname _ _ =>
    obtain ⟨front, rfl⟩ := hname.suffix
    have hopening : (Token.ofWord "(").text = "(" :=
      Token.text_ofWord (Symbol.isWord_mark _ (by simp))
    refine ⟨front, rfl, fun x hx => ?_⟩
    rw [List.mem_singleton.1 hx]
    have hends : Ends [.ofWord "(", .ofWord ")", .finish] :=
      (stops_cons (by rw [hopening]; decide)).ends
    have hname' := hname.any.exchange_append trivial (.of_ends hends)
    exact ⟨.ofWord "(", [.ofWord ")", .finish], by simp [Expected.admits, hopening], faithful_round,
      [.ofWord "(", .ofWord ")"], .finish, rfl, rfl, _, .function hname' (.list_of_nothing _)⟩
  | @parameters i m _ first name _ hname hfirst _ _ ih =>
    obtain ⟨front, rfl⟩ := hname.suffix
    refine ih.of_part (front ++ [first]) [.finish] (by simp) faithful_finish
      fun taken more hmore => ?_
    obtain ⟨before, last, rfl, hlast, hmore⟩ := hmore
    obtain ⟨args, hargs⟩ := hmore [.finish]
    have hname' : Derives false .path (front ++ first :: (taken ++ (before ++ [last, .finish]))) _
        [name] := hname.any.exchange_append trivial .of_head_any
    exact ⟨before ++ [last], .finish, rfl, rfl,
      _, by simpa using Derives.function hname' (.list hfirst hargs hlast)⟩
  | finish hname hargs _ _ =>
    obtain ⟨front, inner, rfl, hcall⟩ := Derives.exchange_call hname hargs
    obtain ⟨hname', hargs'⟩ := hcall [.finish]
    refine ⟨front ++ inner, by simp, fun x hx => ?_⟩
    rw [List.mem_singleton.1 hx]
    exact ⟨.finish, [], rfl, faithful_finish, [], .finish, rfl, rfl,
      _, by simpa using (Derives.function hname' hargs').any⟩
  | @finishConst i m r mark name args hname hargs hmark _ =>
    obtain ⟨front, inner, rfl, hcall⟩ := Derives.exchange_call hname hargs
    obtain ⟨hname', hargs'⟩ := hcall [mark, .finish]
    refine ⟨front ++ inner ++ [mark], by simp, fun x hx => ?_⟩
    rw [List.mem_singleton.1 hx]
    exact ⟨.finish, [], rfl, faithful_finish, [], .finish, rfl, rfl,
      _, by simpa using (Derives.constFunction hname' hargs' hmark).any⟩

end LinkerNames
