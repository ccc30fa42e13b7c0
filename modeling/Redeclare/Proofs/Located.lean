import Redeclare.Proofs.Accepted

/-!
# Where a text is refused

The place that is reported for a malformed text is one up to which nothing is wrong yet: what stands in front of it can
be completed to a document. Whatever the reader was taking when it stopped, what it had taken is derived, and what it
was taking is completed in a few characters: a string by its quote, a backslash by a letter, a name by a colon and a
value, and items and members by the closing character.
-/

namespace Redeclare.Grammar

open Json

/-! ## Beginnings -/

/-- What stands in a text in front of `rest` can be completed to something that satisfies `p`. -/
def Opens (p : List Char → Prop) (cs rest : List Char) : Prop := ∃ before completion, cs = before ++ rest ∧
  p (before ++ completion)

section
variable {p q : List Char → Prop} {cs rest : List Char}

/-- Nothing can be completed to all that there is. -/
theorem Opens.nothing (completion : List Char) (h : p completion) : Opens p cs cs := ⟨[], completion, rfl, h⟩

/-- A beginning behind another text. -/
theorem Opens.behind (front : List Char) (h : Opens p cs rest) (hfront : ∀ text, p text → q (front ++ text)) :
    Opens q (front ++ cs) rest := by
  obtain ⟨before, completion, rfl, hp⟩ := h
  refine ⟨front ++ before, completion, by rw [List.append_assoc], ?_⟩
  rw [List.append_assoc]
  exact hfront _ hp

/-- A beginning of something with another text behind it. -/
theorem Opens.before (back : List Char) (h : Opens p cs rest) (hback : ∀ text, p text → q (text ++ back)) :
    Opens q cs rest := by
  obtain ⟨before, completion, rfl, hp⟩ := h
  refine ⟨before, completion ++ back, rfl, ?_⟩
  rw [← List.append_assoc]
  exact hback _ hp

end

/-! ## Strings -/

/-- The content of a string with its closing quote. -/
def Closed (cs : List Char) : Prop := ∃ body t, cs = body ++ ['"'] ∧ Content body t

theorem Closed.quoted {cs : List Char} (h : Closed cs) : ∃ t, Quoted ('"' :: cs) t := by
  obtain ⟨body, t, rfl, hbody⟩ := h
  exact ⟨t, .mk hbody⟩

theorem closed_quote : Closed ['"'] := ⟨[], [], rfl, .nil⟩

theorem Closed.unescaped {c : Char} {cs : List Char} (hlarge : 0x20 ≤ c.toNat) (hquote : c ≠ '"') (hback : c ≠ '\\')
    (h : Closed cs) : Closed (c :: cs) := by
  obtain ⟨body, t, rfl, hbody⟩ := h
  exact ⟨c :: body, _, rfl, .unescaped hlarge hquote hback hbody⟩

theorem Closed.letter {c d : Char} {cs : List Char} (hletter : (c, d) ∈ letters) (h : Closed cs) :
    Closed ('\\' :: c :: cs) := by
  obtain ⟨body, t, rfl, hbody⟩ := h
  exact ⟨'\\' :: c :: body, _, rfl, .letter hletter hbody⟩

theorem Closed.code {digits cs : List Char} {n : Nat} (hdigits : HexDigits digits n) (h : Closed cs) :
    Closed ('\\' :: 'u' :: digits ++ cs) := by
  obtain ⟨body, t, rfl, hbody⟩ := h
  exact ⟨'\\' :: 'u' :: digits ++ body, _, by simp, hbody.attach_code hdigits⟩

/-- Where something is wrong within a string, the string up to there can be completed; a string that has no end is
reported where it begins. -/
theorem opens_of_takeString {opening cs rest : List Char} {problem : Problem}
    (h : takeString opening cs = .error (.malformed problem rest)) : rest = opening ∨ Opens Closed cs rest := by
  -- a backslash can be completed to the escape of a line feed
  have hescape : ∀ digits, Opens Closed ('\\' :: 'u' :: digits) ('u' :: digits) := fun digits =>
    ⟨['\\'], ['n', '"'], rfl, closed_quote.letter (d := '\n') (by decide)⟩
  fun_induction takeString opening cs with
  | case1 | case3 =>
    cases h
    exact .inl rfl
  | case2 => cases h
  | case4 | case6 | case7 =>
    cases h
    exact .inr (hescape _)
  | case5 a b c d left n hn _ ih =>
    rcases ih (eq_error_of_attachTo h) with heq | hopens
    · exact .inl heq
    · exact .inr (hopens.behind _ fun _ hclosed => hclosed.code (hexValue4?_iff.mp hn))
  | case8 c left _ d hd ih =>
    rcases ih (eq_error_of_attachTo h) with heq | hopens
    · exact .inl heq
    · exact .inr (hopens.behind ['\\', c] fun _ hclosed => hclosed.letter (unescape?_iff.mp hd))
  | case9 | case10 =>
    cases h
    exact .inr (.nothing _ closed_quote)
  | case11 c left hquote hlast _ hback hlarge ih =>
    have hback' : c ≠ '\\' := by
      intro heq
      cases left with
      | nil => exact hlast heq rfl
      | cons d tail => exact hback d tail heq rfl
    rcases ih (eq_error_of_attachTo h) with heq | hopens
    · exact .inl heq
    · exact .inr (hopens.behind [c] fun _ hclosed =>
        hclosed.unescaped (Nat.le_of_not_lt hlarge) hquote hback')

/-! ## Values -/

/-- A value. -/
def IsValue (cs : List Char) : Prop := ∃ v, Value cs v

/-- A name, a colon and a value. -/
def IsMember (cs : List Char) : Prop :=
  ∃ name colon text key v, cs = name ++ (colon ++ text) ∧ Quoted name key ∧ Structural ':' colon ∧ Value text v

/-- Items with the closing bracket. -/
def ClosedItems (cs : List Char) : Prop :=
  ∃ text closing items, cs = text ++ closing ∧ Items text items ∧ Structural ']' closing

/-- Members with the closing brace. -/
def ClosedMembers (cs : List Char) : Prop :=
  ∃ text closing written, cs = text ++ closing ∧ Pairs text written ∧ Structural '\x7d' closing

theorem value_zero : Value ['0'] (.int 0) :=
  .number (.whole false ⟨⟨List.cons_ne_nil '0' [], List.forall_mem_singleton.mpr rfl⟩, by decide⟩ (by decide))

theorem structural_alone (c : Char) : Structural c [c] := @Structural.mk c [] [] nofun nofun

theorem isMember_of_name {cs : List Char} {key : Text} (h : Quoted cs key) : IsMember (cs ++ [':', '0']) :=
  ⟨cs, [':'], ['0'], key, _, rfl, h, structural_alone ':', value_zero⟩

theorem isMember_empty : IsMember ['"', '"', ':', '0'] := isMember_of_name (.mk .nil)

/-! ## Words and numbers -/

theorem takeRest_ne_malformed {negative : Bool} {whole cs rest : List Char} {problem : Problem} :
    takeRest negative whole cs ≠ .error (.malformed problem rest) := by
  unfold takeRest
  intro h
  dsimp only at h
  split at h
  · cases h
  split at h
  · split at h <;> cases h
  · cases h

/-- What is neither a word nor a number is refused where it begins. -/
theorem eq_of_takeScalar {cs rest : List Char} {problem : Problem}
    (h : takeScalar cs = .error (.malformed problem rest)) : rest = cs := by
  unfold takeScalar at h
  split at h
  · cases h
  split at h
  · cases h
  unfold takeNumber at h
  dsimp only at h
  split at h
  · exact absurd h takeRest_ne_malformed
  · cases h
    rfl

/-! ## Items and members -/

section
variable {α : Type} {closing : Char} {one : List Char → Taken α} {next : List Char → Taken (List α)}
  {p q : List Char → Prop} {cs rest : List Char} {problem : Problem}

/-- Where something is wrong among several, they can be completed up to and with the closing character, if that can be
done with each of them. -/
theorem opens_of_series (hone : ∀ {cs a rest}, one cs = .ok (a, rest) → ∃ text, cs = text ++ rest ∧ p text)
    (hopens : ∀ {cs rest}, one cs = .error (.malformed problem rest) → Opens p cs rest)
    (hnext : ∀ {cs rest}, next cs = .error (.malformed problem rest) → Opens q cs rest)
    (hlast : ∀ {text blanks}, p text → Blanks blanks → q (text ++ (blanks ++ [closing])))
    (hmore : ∀ {text comma others}, p text → Structural ',' comma → q others →
      q (text ++ (comma ++ others)))
    (h : series closing one next cs = .error (.malformed problem rest)) : Opens q cs rest := by
  unfold series at h
  split at h
  · rename_i e hwrong
    cases h
    exact (hopens hwrong).before [closing] fun text htext => hlast htext (show Blanks [] from nofun)
  · rename_i a left hright
    obtain ⟨text, rfl, htext⟩ := hone hright
    obtain ⟨blanks, hblanks, hleft⟩ := exists_blanks left
    -- behind the first one neither the closing character nor a comma stands
    have hstray : rest = skipBlanks left → Opens q (text ++ left) rest := by
      rintro rfl
      exact ⟨text ++ blanks, [closing], by rw [List.append_assoc, ← hleft], by
        rw [List.append_assoc]
        exact hlast htext hblanks⟩
    unfold behind at h
    split at h
    · rename_i hnothing
      cases h
      exact hstray hnothing.symm
    · rename_i c tail hc
      split_ifs at h with hclosing hcomma
      · subst hcomma
        obtain ⟨comma, rfl, hstructural⟩ := exists_structural hc
        rw [← List.append_assoc]
        refine (hnext (eq_error_of_as h)).behind _ fun others hothers => ?_
        rw [List.append_assoc]
        exact hmore htext hstructural hothers
      · cases h
        exact hstray hc.symm

end

/-- Where something is wrong in a value, the value up to there can be completed. -/
def ValueOpens (fuel : Nat) : Prop :=
  ∀ {cs rest : List Char} {problem : Problem}, takeValue fuel cs = .error (.malformed problem rest) →
    Opens IsValue cs rest

/-- Where something is wrong in items, the items up to there can be completed. -/
def ItemsOpen (fuel : Nat) : Prop :=
  ∀ {cs rest : List Char} {problem : Problem}, takeItems fuel cs = .error (.malformed problem rest) →
    Opens ClosedItems cs rest

/-- Where something is wrong in members, the members up to there can be completed. -/
def MembersOpen (fuel : Nat) : Prop :=
  ∀ {cs rest : List Char} {problem : Problem}, takeMembers fuel cs = .error (.malformed problem rest) →
    Opens ClosedMembers cs rest

theorem valueOpens_succ {fuel : Nat} (hitems : ItemsOpen fuel) (hmembers : MembersOpen fuel) :
    ValueOpens (fuel + 1) := by
  intro cs rest problem h
  have hanything : IsValue ['0'] := ⟨_, value_zero⟩
  cases cs with
  | nil =>
    cases h
    exact .nothing _ hanything
  | cons c cs =>
    obtain ⟨blanks, hblanks, hcs⟩ := exists_blanks cs
    rcases first_cases c with rfl | rfl | rfl | ⟨hquote, hbrace, hbracket⟩
    · rw [takeValue_quote] at h
      rcases opens_of_takeString (eq_error_of_as h) with rfl | hopens
      · exact .nothing _ hanything
      · refine hopens.behind ['"'] fun text htext => ?_
        obtain ⟨t, ht⟩ := htext.quoted
        exact ⟨.str t, .str ht⟩
    · by_cases hempty : (skipBlanks cs).head? = some ']'
      · obtain ⟨tail, htail⟩ := List.head?_eq_some_iff.mp hempty
        rw [takeValue_brackets fuel htail] at h
        cases h
      · rw [takeValue_bracket fuel hempty] at h
        have hitems := hitems (eq_error_of_as h)
        rw [hcs, ← List.cons_append]
        refine hitems.behind _ fun text htext => ?_
        obtain ⟨text, closing, items, rfl, hderived, hclosing⟩ := htext
        rw [← List.append_assoc]
        exact ⟨_, .arr (@Structural.mk '[' [] blanks nofun hblanks) hderived hclosing⟩
    · by_cases hempty : (skipBlanks cs).head? = some '\x7d'
      · obtain ⟨tail, htail⟩ := List.head?_eq_some_iff.mp hempty
        rw [takeValue_braces fuel htail] at h
        cases h
      · rw [takeValue_brace fuel hempty] at h
        have hmembers := hmembers (eq_error_of_as h)
        rw [hcs, ← List.cons_append]
        refine hmembers.behind _ fun text htext => ?_
        obtain ⟨text, closing, written, rfl, hderived, hclosing⟩ := htext
        rw [← List.append_assoc]
        exact ⟨_, .obj (@Structural.mk '\x7b' [] blanks nofun hblanks) hderived hclosing (kept_ofPairs written)⟩
    · rw [takeValue_scalar fuel hquote hbrace hbracket] at h
      obtain rfl := eq_of_takeScalar h
      exact .nothing _ hanything

theorem itemsOpen_succ {fuel : Nat} (hvalue : ValueOpens fuel) (hitems : ItemsOpen fuel) : ItemsOpen (fuel + 1) := by
  intro cs rest problem h
  rw [takeItems_succ] at h
  refine opens_of_series (p := IsValue) ?_ hvalue hitems ?_ ?_ h
  · intro cs v rest hone
    obtain ⟨text, htext, hv⟩ := (taken_of_take fuel).1 hone
    exact ⟨text, htext, v, hv⟩
  · rintro text blanks ⟨v, hv⟩ hblanks
    exact ⟨text, _, _, rfl, .one hv, @Structural.mk ']' blanks [] hblanks nofun⟩
  · rintro text comma others ⟨v, hv⟩ hcomma ⟨more, closing, items, rfl, hmore, hclosing⟩
    exact ⟨text ++ comma ++ more, closing, _, by simp, .more hv hcomma hmore, hclosing⟩

/-- Behind a name and blanks, a member can be completed. -/
theorem opens_of_name {name left rest : List Char} {key : Text} (hname : Quoted name key)
    (hrest : rest = skipBlanks left) : Opens IsMember (name ++ left) rest := by
  obtain ⟨blanks, hblanks, hleft⟩ := exists_blanks left
  refine ⟨name ++ blanks, [':', '0'], by rw [hrest, List.append_assoc, ← hleft], ?_⟩
  exact ⟨name, blanks ++ [':'], ['0'], key, _, by simp, hname, @Structural.mk ':' blanks [] hblanks nofun, value_zero⟩

/-- Where something is wrong in a member, the member up to there can be completed. -/
theorem opens_of_takeMember {fuel : Nat} (hvalue : ValueOpens fuel) {cs rest : List Char} {problem : Problem}
    (h : takeMember fuel cs = .error (.malformed problem rest)) : Opens IsMember cs rest := by
  cases cs with
  | nil =>
    cases h
    exact .nothing _ isMember_empty
  | cons c cs =>
    rw [takeMember] at h
    split_ifs at h with hquote
    · subst hquote
      split at h
      · rename_i e hstring
        cases h
        rcases opens_of_takeString hstring with rfl | hopens
        · exact .nothing _ isMember_empty
        · have hname : Opens (fun cs => ∃ t, Quoted cs t) ('"' :: cs) rest :=
            hopens.behind ['"'] fun text htext => htext.quoted
          refine hname.before [':', '0'] ?_
          rintro text ⟨t, ht⟩
          exact isMember_of_name ht
      · rename_i key left hstring
        obtain ⟨body, rfl, hbody⟩ := exists_content_of_takeString hstring
        have hname : Quoted ('"' :: body ++ ['"']) key := .mk hbody
        have hcs : '"' :: (body ++ '"' :: left) = '"' :: body ++ ['"'] ++ left := by simp
        rw [hcs]
        split at h
        · rename_i hnothing
          cases h
          exact opens_of_name hname hnothing.symm
        · rename_i d tail hd
          split_ifs at h with hcolon
          · subst hcolon
            obtain ⟨colon, rfl, hstructural⟩ := exists_structural hd
            rw [← List.append_assoc]
            refine (hvalue (eq_error_of_as h)).behind _ ?_
            rintro text ⟨v, hv⟩
            exact ⟨_, colon, text, key, v, List.append_assoc _ _ _, hname, hstructural, hv⟩
          · cases h
            exact opens_of_name hname hd.symm
    · cases h
      exact .nothing _ isMember_empty

theorem membersOpen_succ {fuel : Nat} (hvalue : ValueOpens fuel) (hmembers : MembersOpen fuel) :
    MembersOpen (fuel + 1) := by
  intro cs rest problem h
  rw [takeMembers_succ] at h
  refine opens_of_series (p := IsMember) ?_ (opens_of_takeMember hvalue) hmembers ?_ ?_ h
  · intro cs m rest hone
    obtain ⟨name, colon, text, rfl, hname, hcolon, hv⟩ := exists_of_takeMember (taken_of_take fuel).1 hone
    exact ⟨name ++ (colon ++ text), by simp, name, colon, text, m.1, m.2, rfl, hname, hcolon, hv⟩
  · rintro _ blanks ⟨name, colon, text, key, v, rfl, hname, hcolon, hv⟩ hblanks
    exact ⟨name ++ colon ++ text, _, _, by simp, .one hname hcolon hv, @Structural.mk '\x7d' blanks [] hblanks nofun⟩
  · rintro _ comma others ⟨name, colon, text, key, v, rfl, hname, hcolon, hv⟩ hcomma
      ⟨more, closing, written, rfl, hmore, hclosing⟩
    exact ⟨name ++ colon ++ text ++ comma ++ more, closing, _, by simp, .more hname hcolon hv hcomma hmore, hclosing⟩

/-- Wherever the reader finds something wrong, what it was taking can be completed, whatever the fuel. -/
theorem opens_of_take (fuel : Nat) : ValueOpens fuel ∧ ItemsOpen fuel ∧ MembersOpen fuel := by
  induction fuel with
  | zero =>
    refine ⟨?_, ?_, ?_⟩
    · intro cs rest problem h
      cases h
      exact .nothing ['0'] ⟨_, value_zero⟩
    · intro cs rest problem h
      cases h
      exact .nothing ['0', ']'] ⟨['0'], _, _, rfl, .one value_zero, structural_alone ']'⟩
    · intro cs rest problem h
      cases h
      exact .nothing ['"', '"', ':', '0', '\x7d']
        ⟨_, _, _, rfl, .one (.mk .nil) (structural_alone ':') value_zero, structural_alone '\x7d'⟩
  | succ fuel ih =>
    obtain ⟨hvalue, hitems, hmembers⟩ := ih
    exact ⟨valueOpens_succ hitems hmembers, itemsOpen_succ hvalue hitems, membersOpen_succ hvalue hmembers⟩

/-! ## Documents -/

/-- No document begins with a byte order mark. -/
theorem Document.head?_ne {cs : List Char} {v : Json} (h : Document cs v) : cs.head? ≠ some '\uFEFF' := by
  intro hhead
  obtain ⟨tail, rfl⟩ := List.head?_eq_some_iff.mp hhead
  obtain ⟨left, htake, -⟩ := (document_iff (Nat.le_refl _)).mp h
  obtain ⟨c, _, hc, -, -, hne⟩ := starts_of_takeValue (show takeValue _ _ = taken none v left from htake)
  rw [skipBlanks_cons rfl] at hc
  cases hc
  exact hne rfl

/-- Where something is wrong in a text, the text up to there can be completed to a document. -/
theorem opens_of_takeDocument {cs rest : List Char} {problem : Problem}
    (h : takeDocument cs = .error (.malformed problem rest)) : Opens (fun cs => ∃ v, Document cs v) cs rest := by
  unfold takeDocument at h
  split_ifs at h with hmark
  · cases h
    exact .nothing ['0'] ⟨_, @Document.mk [] ['0'] [] _ nofun value_zero nofun⟩
  obtain ⟨blanks, hblanks, hcs⟩ := exists_blanks cs
  split at h
  · rename_i e hvalue
    cases h
    rw [hcs]
    refine ((opens_of_take _).1 hvalue).behind blanks ?_
    rintro text ⟨v, hv⟩
    exact ⟨v, by simpa using @Document.mk blanks text [] v hblanks hv nofun⟩
  · rename_i v left hvalue
    obtain ⟨text, htext, hv⟩ := (taken_of_take _).1 hvalue
    obtain ⟨after, hafter, hleft⟩ := exists_blanks left
    split at h
    · cases h
    · -- what stands in front of the rest is a document already
      cases h
      refine ⟨blanks ++ text ++ after, [], ?_, v, by simpa using Document.mk hblanks hv hafter⟩
      rw [List.append_assoc, List.append_assoc, ← hleft, ← htext, ← hcs]

end Redeclare.Grammar

namespace Redeclare.Json

/-- A malformed text is refused at the place in front of what was left. -/
theorem exists_rest_of_read {cs : List Char} {problem : Problem} {place : Lines.Place}
    (h : read cs = .error (.malformed problem place)) :
    ∃ rest, takeDocument cs = .error (.malformed problem rest) ∧
      place = .after (cs.take (cs.length - rest.length)) := by
  unfold read at h
  cases htake : takeDocument cs with
  | ok v =>
    rw [htake] at h
    cases h
  | error stop =>
    rw [htake] at h
    cases stop with
    | malformed problem rest =>
      cases h
      exact ⟨rest, rfl, rfl⟩
    | constant name => cases h
    | tooManyDigits count => cases h

end Redeclare.Json

namespace Redeclare.Lines

/-- The position of the last line feed in a text; that of a text without line feeds is one before its beginning. -/
inductive LastFeed : List Char → Int → Prop
  | none {cs : List Char} : '\n' ∉ cs → LastFeed cs (-1)
  | at {before after : List Char} : '\n' ∉ after → LastFeed (before ++ '\n' :: after) before.length

/-- The column of a place counts from the last line feed in front of it. -/
theorem exists_lastFeed (before : List Char) :
    ∃ p, LastFeed before p ∧ ((Place.after before).column : Int) = (Place.after before).offset - p := by
  obtain ⟨line, hline⟩ : ∃ line, before.reverse.takeWhile (· != '\n') = line := ⟨_, rfl⟩
  have hfeed : '\n' ∉ line.reverse := by
    rw [List.mem_reverse, ← hline]
    intro hmem
    simpa using List.mem_takeWhile_imp hmem
  have hsplit := List.takeWhile_append_dropWhile (p := (· != '\n')) (l := before.reverse)
  rw [hline] at hsplit
  unfold Place.after
  rw [hline]
  cases hrest : before.reverse.dropWhile (· != '\n') with
  | nil =>
    rw [hrest, List.append_nil] at hsplit
    obtain rfl : line.reverse = before := by rw [hsplit, List.reverse_reverse]
    exact ⟨-1, .none hfeed, by simp⟩
  | cons c front =>
    have hc := List.head?_dropWhile_not (· != '\n') before.reverse
    rw [hrest] at hc
    obtain rfl : c = '\n' := by simpa using hc
    rw [hrest] at hsplit
    obtain rfl : front.reverse ++ '\n' :: line.reverse = before := by
      rw [← List.reverse_reverse before, ← hsplit]
      simp
    exact ⟨front.reverse.length, .at hfeed, by simp⟩

end Redeclare.Lines

namespace Redeclare.Artifact

open Lines

/-- A malformed text is refused at a place within it up to which it can be completed to a document. The line of the
place is told by the line feeds in front of it, and the column by the last of them. -/
theorem place_of_malformed {tree : FileTree} {path : Path} {content : Utf8.Bytes} {cs : List Char}
    {problem : Json.Problem} {place : Place} (hnul : path.hasNul = false) (hread : tree.read path = .ok content)
    (hcs : Utf8.decode content = .ok cs) (h : load tree path = .error (.noDocument (.malformed problem place))) :
    place.offset ≤ (unify cs).length ∧
    (∃ accepted document, (unify cs).take place.offset <+: accepted ∧
      decode (Utf8.encodeChars accepted) = .ok document) ∧
    place.line = 1 + ((unify cs).take place.offset).count '\n' ∧
    ∃ p, LastFeed ((unify cs).take place.offset) p ∧ (place.column : Int) = place.offset - p := by
  rw [load_of_read hnul hread, decode, hcs] at h
  dsimp only at h
  split at h
  · rename_i e hwrong
    cases h
    obtain ⟨rest, hrest, rfl⟩ := Json.exists_rest_of_read hwrong
    obtain ⟨before, completion, hbefore, document, hdocument⟩ := Grammar.opens_of_takeDocument hrest
    have hfront : (unify cs).take ((unify cs).length - rest.length) = before := by
      rw [hbefore, List.length_append, Nat.add_sub_cancel, List.take_left]
    have hsame : (unify cs).take before.length = before := by rw [hbefore, List.take_left]
    have hoffset : (Place.after before).offset = before.length := rfl
    rw [hfront, hoffset, hsame]
    refine ⟨?_, ⟨before ++ completion, document, List.prefix_append _ _, ?_⟩, Nat.add_comm _ _, exists_lastFeed before⟩
    · rw [hbefore, List.length_append]
      exact Nat.le_add_right _ _
    · simp only [decode, Utf8.decode_encodeChars, Grammar.read_unify_iff.mpr ⟨hdocument.head?_ne, hdocument⟩]
  · cases h

/-- Behind a comma, at the closing bracket in the third line, a value is expected. -/
theorem place_of_malformed_trailingComma :
    load ⟨[([[.char 'x']], .file 0o644 (Utf8.encodeChars "[\r\n1,\r\n]".toList))], []⟩ ⟨.relative, [[.char 'x']]⟩ =
        .error (.noDocument (.malformed .value ⟨3, 1, 5⟩)) ∧
      ∃ accepted document, ['[', '\n', '1', ',', '\n'] <+: accepted ∧
        decode (Utf8.encodeChars accepted) = .ok document := by
  have hplace : (Json.read ['[', '\n', '1', ',', '\n', ']']).map (fun _ => ()) =
      .error (.malformed .value ⟨3, 1, 5⟩) := by decide +kernel
  cases hwrong : Json.read ['[', '\n', '1', ',', '\n', ']'] with
  | ok v =>
    rw [hwrong] at hplace
    cases hplace
  | error e =>
    rw [hwrong] at hplace
    cases hplace
    have hunify : unify "[\r\n1,\r\n]".toList = ['[', '\n', '1', ',', '\n', ']'] := rfl
    have hload : load ⟨[([[.char 'x']], .file 0o644 (Utf8.encodeChars "[\r\n1,\r\n]".toList))], []⟩
        ⟨.relative, [[.char 'x']]⟩ = .error (.noDocument (.malformed .value ⟨3, 1, 5⟩)) := by
      rw [load_of_read rfl rfl, decode]
      simp only [Utf8.decode_encodeChars, hunify, hwrong]
    obtain ⟨-, haccepted, -⟩ := place_of_malformed rfl rfl (Utf8.decode_encodeChars "[\r\n1,\r\n]".toList) hload
    exact ⟨hload, haccepted⟩

end Redeclare.Artifact
