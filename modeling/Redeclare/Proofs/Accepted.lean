import Redeclare.Proofs.Derivations
import Redeclare.Proofs.Documents

/-!
# Which files hold a document

A file is read as a document exactly when its bytes are those of characters that the grammar derives a document from,
without a byte order mark in front, and it is read as that document. The names of numbers that JSON does not have are
refused wherever a value may stand, whatever stands behind them.
-/

namespace Redeclare.Grammar

open Json Lines

/-! ## Texts -/

/-- A document is derived from a text exactly when a value is taken behind its first blanks and nothing but blanks is
left. -/
theorem document_iff {cs : List Char} {v : Json} {fuel : Nat} (hfuel : 2 * weight cs + 1 ≤ fuel) :
    Document cs v ↔ ∃ left, takeValue fuel (skipBlanks cs) = .ok (v, left) ∧ skipBlanks left = [] := by
  constructor
  · intro h
    cases h with
    | @mk before text after v hbefore hv hafter =>
      have hdelimited := hafter.delimited (show Delimited [] from nofun)
      have hnothing := hafter.skip []
      rw [List.append_nil] at hdelimited hnothing
      rw [weight_append, weight_append] at hfuel
      obtain ⟨left, htake, hleft⟩ := hv.take hdelimited fuel (by omega)
      refine ⟨left, ?_, hleft.trans hnothing⟩
      rw [List.append_assoc, hbefore.skip, htake]
  · rintro ⟨left, htake, hleft⟩
    obtain ⟨text, htext, hv⟩ := (taken_of_take fuel).1 htake
    obtain ⟨before, hbefore, hcs⟩ := exists_blanks cs
    obtain ⟨after, hafter, hrest⟩ := exists_blanks left
    rw [hleft, List.append_nil] at hrest
    rw [hcs, htext, ← List.append_assoc]
    exact .mk hbefore hv (hrest ▸ hafter)

/-- Line ends are blanks. -/
theorem weight_unify (cs : List Char) : weight (unify cs) = weight cs := by
  unfold weight
  fun_induction unify cs with
  | case1 rest ih => simpa [isBlank] using ih
  | case2 rest _ ih => simpa [isBlank] using ih
  | case3 c rest _ _ ih => rw [List.countP_cons, List.countP_cons, ih]
  | case4 => rfl

theorem weight_le_length_unify (cs : List Char) : weight cs ≤ (unify cs).length := by
  rw [← weight_unify]
  exact List.countP_le_length

theorem head?_unify {c : Char} (hfeed : c ≠ '\n') (hreturn : c ≠ '\r') (cs : List Char) :
    (unify cs).head? = some c ↔ cs.head? = some c := by
  rcases unify_cases cs with rfl | ⟨d, rest, -, rfl, heq⟩ | ⟨rest, left, rfl, heq⟩
  · rfl
  · rw [heq]
    rfl
  · rw [heq]
    simp [hfeed.symm, hreturn.symm]

theorem exists_of_unified {α : Type} {t : Taken α} {a : α} {left : List Char} (h : t.unified = .ok (a, left)) :
    ∃ rest, t = .ok (a, rest) ∧ left = unify rest := by
  rcases t with (⟨_, _⟩ | _ | _) | ⟨_, rest⟩
  · cases h
  · cases h
  · cases h
  · cases h
    exact ⟨rest, rfl, rfl⟩

theorem eq_nil_of_unify {cs : List Char} (h : unify cs = []) : cs = [] := by
  rcases unify_cases cs with rfl | ⟨d, rest, -, rfl, heq⟩ | ⟨rest, left, rfl, heq⟩
  · rfl
  · rw [heq] at h
    cases h
  · rw [heq] at h
    cases h

theorem read_eq_ok_iff {cs : List Char} {v : Json} :
    Json.read cs = .ok v ↔ cs.head? ≠ some '\uFEFF' ∧
      ∃ left, takeValue (2 * cs.length + 2) (skipBlanks cs) = .ok (v, left) ∧ skipBlanks left = [] := by
  unfold Json.read takeDocument
  by_cases hmark : cs.head? = some '\uFEFF'
  · simp [hmark, Except.mapError]
  rw [if_neg hmark]
  cases takeValue (2 * cs.length + 2) (skipBlanks cs) with
  | error e => simp [Except.mapError]
  | ok p =>
    obtain ⟨w, left⟩ := p
    dsimp only
    cases h : skipBlanks left with
    | nil => simp [hmark, h, Except.mapError]
    | cons c rest => simp [h, Except.mapError]

/-- A text is read as a document, with its line ends made alike, exactly when the grammar derives it, and no byte order
mark stands in front. -/
theorem read_unify_iff {cs : List Char} {v : Json} :
    Json.read (unify cs) = .ok v ↔ cs.head? ≠ some '\uFEFF' ∧ Document cs v := by
  have hfuel : 2 * weight cs + 1 ≤ 2 * (unify cs).length + 2 := by
    have hlength := weight_le_length_unify cs
    omega
  have htake := (take_unify (2 * (unify cs).length + 2)).1 (skipBlanks cs)
  rw [document_iff hfuel, read_eq_ok_iff, Ne, head?_unify (by decide) (by decide), skipBlanks_unify, htake]
  refine and_congr_right fun _ => ⟨?_, ?_⟩
  · rintro ⟨left, hleft, hnothing⟩
    obtain ⟨rest, hrest, rfl⟩ := exists_of_unified hleft
    rw [skipBlanks_unify] at hnothing
    exact ⟨rest, hrest, eq_nil_of_unify hnothing⟩
  · rintro ⟨left, hleft, hnothing⟩
    refine ⟨unify left, by rw [hleft, unified_ok], ?_⟩
    rw [skipBlanks_unify, hnothing]
    rfl

/-! ## Numbers that JSON does not have -/

mutual

/-- Where the next items are refused, items with a comma behind them are. -/
theorem Items.refuse {cs comma rest : List Char} {items : List Json} {e : Stop} (h : Items cs items)
    (hcomma : Structural ',' comma) (fuel : Nat) (hfuel : 2 * weight cs + 2 ≤ fuel)
    (hrest : ∀ fuel', fuel ≤ fuel' + 2 * weight cs + 1 → takeItems fuel' (skipBlanks rest) = .error e) :
    takeItems fuel (skipBlanks (cs ++ (comma ++ rest))) = .error e := by
  obtain ⟨fuel, rfl⟩ : ∃ n, fuel = n + 1 := ⟨fuel - 1, by omega⟩
  rw [takeItems_succ]
  match h with
  | .one hv =>
    obtain ⟨left, htake, hleft⟩ := hv.take (hcomma.delimited (by simp) rest) fuel (by omega)
    rw [series_structural_comma htake hleft hcomma (by decide), hrest fuel (by omega), Taken.as]
  | @Items.more cs between others v items hv hbetween hothers =>
    rw [weight_append, weight_append, hbetween.weight rfl] at hfuel hrest
    obtain ⟨left, htake, hleft⟩ :=
      hv.take (hbetween.delimited (by simp) (others ++ (comma ++ rest))) fuel (by omega)
    have hnext := hothers.refuse hcomma fuel (by omega) fun fuel' hfuel' => hrest fuel' (by omega)
    rw [List.append_assoc, List.append_assoc, series_structural_comma htake hleft hbetween (by decide), hnext, Taken.as]

/-- Where the next members are refused, members with a comma behind them are. -/
theorem Pairs.refuse {cs comma rest : List Char} {written : Members} {e : Stop} (h : Pairs cs written)
    (hcomma : Structural ',' comma) (fuel : Nat) (hfuel : 2 * weight cs + 2 ≤ fuel)
    (hrest : ∀ fuel', fuel ≤ fuel' + 2 * weight cs + 1 → takeMembers fuel' (skipBlanks rest) = .error e) :
    takeMembers fuel (skipBlanks (cs ++ (comma ++ rest))) = .error e := by
  obtain ⟨fuel, rfl⟩ : ∃ n, fuel = n + 1 := ⟨fuel - 1, by omega⟩
  rw [takeMembers_succ]
  match h with
  | @Pairs.one name colon cs key v hname hcolon hv =>
    rw [weight_append, weight_append, hcolon.weight rfl] at hfuel hrest
    obtain ⟨left, htake, hleft⟩ := hv.take (hcomma.delimited (by simp) rest) fuel (by omega)
    have hmember := hname.takeMember hcolon fuel (cs ++ (comma ++ rest))
    rw [htake, Taken.as] at hmember
    rw [List.append_assoc, List.append_assoc, series_structural_comma hmember hleft hcomma (by decide),
      hrest fuel (by omega), Taken.as]
  | @Pairs.more name colon cs between others key v written hname hcolon hv hbetween hothers =>
    rw [weight_append, weight_append, weight_append, weight_append, hcolon.weight rfl, hbetween.weight rfl]
      at hfuel hrest
    obtain ⟨left, htake, hleft⟩ :=
      hv.take (hbetween.delimited (by simp) (others ++ (comma ++ rest))) fuel (by omega)
    have hmember := hname.takeMember hcolon fuel (cs ++ (between ++ (others ++ (comma ++ rest))))
    rw [htake, Taken.as] at hmember
    have hnext := hothers.refuse hcomma fuel (by omega) fun fuel' hfuel' => hrest fuel' (by omega)
    rw [List.append_assoc, List.append_assoc, List.append_assoc, List.append_assoc,
      series_structural_comma hmember hleft hbetween (by decide), hnext, Taken.as]

end

section
variable {opening cs name : List Char} {fuel : Nat}

/-- Where an item is refused for a name, so is the array from its opening bracket on. -/
theorem takeValue_error_of_items (hopening : Structural '[' opening)
    (h : takeItems fuel (skipBlanks cs) = .error (.constant name)) :
    takeValue (fuel + 1) (skipBlanks (opening ++ cs)) = .error (.constant name) := by
  obtain ⟨tail, htail, hskip⟩ := hopening.skip rfl cs
  have hhead : (skipBlanks tail).head? ≠ some ']' := by
    obtain ⟨c, _, hc, -, hne, -⟩ := starts_of_takeItems (show takeItems fuel _ = taken (some name) [] [] from h)
    rw [hskip, hc]
    simpa using hne
  rw [htail, takeValue_bracket fuel hhead, hskip, h, Taken.as]

/-- Where a member is refused for a name, so is the object from its opening brace on. -/
theorem takeValue_error_of_members (hopening : Structural '\x7b' opening)
    (h : takeMembers fuel (skipBlanks cs) = .error (.constant name)) :
    takeValue (fuel + 1) (skipBlanks (opening ++ cs)) = .error (.constant name) := by
  obtain ⟨tail, htail, hskip⟩ := hopening.skip rfl cs
  have hhead : (skipBlanks tail).head? ≠ some '\x7d' := by
    rw [hskip, head?_of_takeMembers (show takeMembers fuel _ = taken (some name) [] [] from h)]
    decide
  rw [htail, takeValue_brace fuel hhead, hskip, h, Taken.as]

theorem takeItems_error {e : Stop} (h : takeValue fuel cs = .error e) : takeItems (fuel + 1) cs = .error e := by
  rw [takeItems_succ, series_error h]

theorem takeMembers_error {e : Stop} {quoted colon : List Char} {key : Text} (hquoted : Quoted quoted key)
    (hcolon : Structural ':' colon) (h : takeValue fuel (skipBlanks cs) = .error e) :
    takeMembers (fuel + 1) (skipBlanks (quoted ++ (colon ++ cs))) = .error e := by
  have hmember := hquoted.takeMember hcolon fuel cs
  rw [h, Taken.as] at hmember
  rw [takeMembers_succ, series_error hmember]

end

/-- A name of a number that JSON does not have is refused in the place of every value, whatever stands behind it. -/
theorem Front.refuse {front name : List Char} (h : Front front) (hname : name ∈ constants) (rest : List Char)
    (fuel : Nat) (hfuel : 2 * weight front + 1 ≤ fuel) :
    takeValue fuel (skipBlanks (front ++ (name ++ rest))) = .error (.constant name) := by
  obtain ⟨fuel, rfl⟩ : ∃ n, fuel = n + 1 := ⟨fuel - 1, by omega⟩
  induction h generalizing fuel with
  | blanks hblanks =>
    have hrefuse := takeValue_constant hname fuel rest
    have hstarts := starts_of_takeValue (show takeValue _ _ = taken (some name) Json.null [] from hrefuse)
    rw [hblanks.skip, hstarts.skipBlanks, hrefuse]
  | @firstItem opening front hopening _ ih =>
    rw [weight_append, hopening.weight rfl] at hfuel
    obtain ⟨fuel, rfl⟩ : ∃ n, fuel = n + 2 := ⟨fuel - 2, by omega⟩
    have hvalue := ih fuel (by omega)
    rw [List.append_assoc]
    exact takeValue_error_of_items hopening (takeItems_error hvalue)
  | @nextItem opening cs comma front items hopening hitems hcomma _ ih =>
    simp only [weight_append, hopening.weight rfl, hcomma.weight rfl] at hfuel
    simp only [List.append_assoc]
    apply takeValue_error_of_items hopening
    apply hitems.refuse hcomma fuel (by omega)
    intro fuel' hfuel'
    obtain ⟨fuel', rfl⟩ : ∃ n, fuel' = n + 2 := ⟨fuel' - 2, by omega⟩
    exact takeItems_error (ih fuel' (by omega))
  | @firstMember opening quoted colon front key hopening hquoted hcolon _ ih =>
    simp only [weight_append, hopening.weight rfl, hcolon.weight rfl] at hfuel
    obtain ⟨fuel, rfl⟩ : ∃ n, fuel = n + 2 := ⟨fuel - 2, by omega⟩
    simp only [List.append_assoc]
    exact takeValue_error_of_members hopening (takeMembers_error hquoted hcolon (ih fuel (by omega)))
  | @nextMember opening cs comma quoted colon front written key hopening hpairs hcomma hquoted hcolon _ ih =>
    simp only [weight_append, hopening.weight rfl, hcomma.weight rfl, hcolon.weight rfl] at hfuel
    simp only [List.append_assoc]
    apply takeValue_error_of_members hopening
    apply hpairs.refuse hcomma fuel (by omega)
    intro fuel' hfuel'
    obtain ⟨fuel', rfl⟩ : ∃ n, fuel' = n + 2 := ⟨fuel' - 2, by omega⟩
    exact takeMembers_error hquoted hcolon (ih fuel' (by omega))

theorem read_eq_constant {cs name : List Char}
    (h : takeValue (2 * cs.length + 2) (skipBlanks cs) = .error (.constant name)) :
    Json.read cs = .error (.constant name) := by
  have hmark : cs.head? ≠ some '\uFEFF' := by
    intro hhead
    obtain ⟨tail, rfl⟩ := List.head?_eq_some_iff.mp hhead
    obtain ⟨c, _, hc, -, -, hne⟩ := starts_of_takeValue (show takeValue _ _ = taken (some name) Json.null [] from h)
    rw [skipBlanks_cons rfl] at hc
    cases hc
    exact hne rfl
  rw [Json.read, takeDocument, if_neg hmark, h]
  rfl

/-- A text with such a name in the place of a value is refused by the name, with its line ends made alike. -/
theorem read_unify_constant {front name : List Char} (h : Front front) (hname : name ∈ constants) (rest : List Char) :
    Json.read (unify (front ++ (name ++ rest))) = .error (.constant name) := by
  obtain ⟨cs, hcs⟩ : ∃ cs, cs = front ++ (name ++ rest) := ⟨_, rfl⟩
  have hfuel : 2 * weight front + 1 ≤ 2 * (unify cs).length + 2 := by
    have hweight := congrArg weight hcs
    rw [weight_append] at hweight
    have hlength := weight_le_length_unify cs
    omega
  have hrefuse := h.refuse hname rest _ hfuel
  have htake := (take_unify (2 * (unify cs).length + 2)).1 (skipBlanks cs)
  rw [← hcs] at hrefuse ⊢
  rw [hrefuse, ← skipBlanks_unify] at htake
  exact read_eq_constant htake

end Redeclare.Grammar

namespace Redeclare.Artifact

/-- What a file holds: a document exactly when its bytes are characters that the grammar derives it from. -/
theorem decode_eq_ok_iff {content : Utf8.Bytes} {v : Json} :
    decode content = .ok v ↔
      ∃ cs, content = cs.flatMap String.utf8EncodeChar ∧ cs.head? ≠ some '\uFEFF' ∧ Grammar.Document cs v := by
  have hparts : decode content = .ok v ↔
      ∃ cs, Utf8.decode content = .ok cs ∧ Json.read (Lines.unify cs) = .ok v := by
    unfold decode
    cases Utf8.decode content with
    | error e => simp
    | ok cs => cases hread : Json.read (Lines.unify cs) <;> simp [hread]
  rw [hparts]
  simp only [Utf8.decode_eq_ok_iff, Grammar.read_unify_iff]

/-- A file is read as a document exactly when it holds the bytes of characters that the grammar derives this document
from, and no byte order mark stands in front; and the name of a number that JSON does not have is refused in the place
of every value. -/
theorem load_iff_document {tree : FileTree} {path : Path} {content : Utf8.Bytes} (hnul : path.hasNul = false)
    (hread : tree.read path = .ok content) :
    (∀ v, load tree path = .ok v ↔
      ∃ cs, content = cs.flatMap String.utf8EncodeChar ∧ cs.head? ≠ some '\uFEFF' ∧ Grammar.Document cs v) ∧
    ∀ front name rest, Grammar.Front front → name ∈ ["NaN".toList, "Infinity".toList, "-Infinity".toList] →
      content = (front ++ (name ++ rest)).flatMap String.utf8EncodeChar →
      load tree path = .error (.noDocument (.constant name)) := by
  rw [load_of_read hnul hread]
  refine ⟨fun v => decode_eq_ok_iff, ?_⟩
  intro front name rest hfront hname hcontent
  have hconstant : name ∈ Json.constants := hname
  simp only [decode, Utf8.decode_eq_ok_iff.mpr hcontent, Grammar.read_unify_constant hfront hconstant rest]

/-- Of a repeated name the last value is kept, two halves of a surrogate pair side by side are one character, and a line
end of any kind is a blank; a name of a number that JSON does not have is refused in an array behind another value. -/
theorem load_iff_document_repeatedName :
    load ⟨[([[.char 'x']], .file 0o644
        ("\x7b\"a\":1,\r\n\"a\":\"\\ud83d\\ude00\"\x7d".toList.flatMap String.utf8EncodeChar))], []⟩
      ⟨.relative, [[.char 'x']]⟩ = .ok (.obj [([.char 'a'], .str [.char (Char.ofNat 0x1F600)])]) ∧
    load ⟨[([[.char 'x']], .file 0o644 ("[1, NaN]".toList.flatMap String.utf8EncodeChar))], []⟩
      ⟨.relative, [[.char 'x']]⟩ = .error (.noDocument (.constant "NaN".toList)) := by
  have hone : Grammar.Value ['1'] (.int 1) :=
    .number (.whole false ⟨⟨List.cons_ne_nil '1' [], List.forall_mem_singleton.mpr rfl⟩, by decide⟩ (by decide))
  have hnone : Grammar.Blanks [] := nofun
  constructor
  · have hname : Grammar.Quoted ['"', 'a', '"'] [.char 'a'] :=
      .mk (.unescaped (by decide) (by decide) (by decide) .nil)
    have hhigh : Grammar.HexDigits ['d', '8', '3', 'd'] 0xD83D := Grammar.hexValue4?_iff.mp rfl
    have hlow : Grammar.HexDigits ['d', 'e', '0', '0'] 0xDE00 := Grammar.hexValue4?_iff.mp rfl
    have hpair : Grammar.Content ['\\', 'u', 'd', '8', '3', 'd', '\\', 'u', 'd', 'e', '0', '0']
        [.char (Char.ofNat 0x1F600)] :=
      .pair hhigh (by simp [Grammar.IsHigh]) hlow (by simp [Grammar.IsLow]) .nil
    have hbreak : Grammar.Structural ',' [',', '\r', '\n'] := .mk hnone (by simp [Grammar.Blanks])
    have hpairs := Grammar.Pairs.more hname (.mk hnone hnone) hone hbreak
      (.one hname (.mk hnone hnone) (.str (.mk hpair)))
    have hobj := Grammar.Value.obj (.mk hnone hnone) hpairs (.mk hnone hnone) (Grammar.kept_ofPairs _)
    exact (load_iff_document rfl rfl).1 _ |>.mpr ⟨_, rfl, by decide, .mk hnone hobj hnone⟩
  · have hcomma : Grammar.Structural ',' [',', ' '] := .mk hnone (by simp [Grammar.Blanks])
    have hfront := Grammar.Front.nextItem (.mk hnone hnone) (.one hone) hcomma (.blanks hnone)
    exact (load_iff_document rfl rfl).2 _ "NaN".toList "]".toList hfront (by decide) rfl

end Redeclare.Artifact
