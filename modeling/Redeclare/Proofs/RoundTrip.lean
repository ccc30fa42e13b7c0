import Redeclare.Proofs.Literals
import Redeclare.Proofs.Numbers
import Redeclare.Proofs.Values

/-!
# Reading what was written

A document is written onto the text that follows it, and read back from there: what follows is left, and the value is
the one that was written. The only documents that are not read back hold a number that JSON does not have; the reader
refuses the first of them by its name. The text of a document is at most as deep as it is long, so the fuel of the
reader, twice the length of the text, is enough.
-/

namespace Redeclare.Json

/-! ## Numbers that JSON does not have -/

/-- The name under which a number is written that JSON does not have. -/
def constantName? : Json → Option (List Char)
  | .double .nan => some NumberLayout.document.nan
  | .double (.infinite negative) => some (sign negative ++ NumberLayout.document.infinity)
  | _ => none

/-- The first such name in the text of values. -/
def constantIn? (vs : List Json) : Option (List Char) := vs.findSome? constantName?

theorem constantIn?_append (a b : List Json) : constantIn? (a ++ b) = (constantIn? a).or (constantIn? b) :=
  List.findSome?_append

theorem constantName?_eq_none {v : Json} : constantName? v = none ↔ FiniteDouble v := by
  cases v with
  | double x => cases x <;> simp [constantName?, FiniteDouble, Double.IsFinite]
  | _ => simp [constantName?, FiniteDouble]

/-- The names are those that the reader refuses. -/
theorem mem_constants_of_constantName? {v : Json} {name : List Char} (h : constantName? v = some name) :
    name ∈ constants := by
  cases v with
  | double x =>
    cases x with
    | finite negative x => cases h
    | infinite negative =>
      cases h
      cases negative <;> decide
    | nan =>
      cases h
      decide
  | _ => cases h

/-- No such name is in the text of a document exactly when all its doubles are finite. -/
theorem constantIn?_eq_none {v : Json} : constantIn? v.values = none ↔ v.Finite := by
  simp only [constantIn?, List.findSome?_eq_none_iff, constantName?_eq_none]
  rfl

/-- What is taken when `a` was written in front of `rest`: it, unless a name that is refused was found in its text. -/
def taken {α : Type} (found : Option (List Char)) (a : α) (rest : List Char) : Taken α :=
  match found with
  | none => .ok (a, rest)
  | some name => .error (.constant name)

theorem as_taken {α β : Type} (f : α → β) (found : Option (List Char)) (a : α) (rest : List Char) :
    Taken.as f (taken found a rest) = taken found (f a) rest := by
  cases found <;> rfl

theorem taken_ne_malformed {α : Type} {found : Option (List Char)} {a : α} {rest left : List Char} {problem : Problem} :
    taken found a rest ≠ .error (.malformed problem left) := by
  cases found <;> simp [taken]

/-! ## The first character of a value -/

/-- A text that begins as values do. -/
def Starts (cs : List Char) : Prop := ∃ c tail, cs = c :: tail ∧ isBlank c = false ∧ c ≠ ']' ∧ c ≠ '\uFEFF'

theorem Starts.skipBlanks {cs : List Char} (h : Starts cs) : skipBlanks cs = cs := by
  obtain ⟨c, tail, rfl, hc, -⟩ := h
  simp [Json.skipBlanks, hc]

/-- No value begins with a character with which no word and no number begins. -/
theorem takeValue_of_stray {c : Char} (h : isBlank c = true ∨ c = ']' ∨ c = '\uFEFF') (fuel : Nat) (tail : List Char) :
    takeValue fuel (c :: tail) = .error (.malformed .value (c :: tail)) := by
  cases fuel with
  | zero => rfl
  | succ fuel =>
    have hcs : c = ' ' ∨ c = '\t' ∨ c = '\n' ∨ c = '\r' ∨ c = ']' ∨ c = '\uFEFF' := by
      simpa [isBlank, or_assoc] using h
    rcases hcs with rfl | rfl | rfl | rfl | rfl | rfl <;> rfl

/-- A text that is taken as a value, or refused for a name, begins as values do. -/
theorem starts_of_takeValue {fuel : Nat} {cs rest : List Char} {found : Option (List Char)} {v : Json}
    (h : takeValue fuel cs = taken found v rest) : Starts cs := by
  cases cs with
  | nil =>
    cases fuel with
    | zero => exact absurd h.symm taken_ne_malformed
    | succ fuel => exact absurd h.symm taken_ne_malformed
  | cons c tail =>
    refine ⟨c, tail, rfl, ?_, ?_, ?_⟩
    · by_contra hblank
      rw [takeValue_of_stray (.inl (by simpa using hblank))] at h
      exact taken_ne_malformed h.symm
    · rintro rfl
      rw [takeValue_of_stray (.inr (.inl rfl))] at h
      exact taken_ne_malformed h.symm
    · rintro rfl
      rw [takeValue_of_stray (.inr (.inr rfl))] at h
      exact taken_ne_malformed h.symm

/-- A text that is taken as items, or refused for a name, begins as values do. -/
theorem starts_of_takeItems {fuel : Nat} {cs rest : List Char} {found : Option (List Char)} {items : List Json}
    (h : takeItems fuel cs = taken found items rest) : Starts cs := by
  cases fuel with
  | zero => exact absurd h.symm taken_ne_malformed
  | succ fuel =>
    rw [takeItems] at h
    split at h
    · rename_i e he
      cases found with
      | none => cases h
      | some name =>
        cases h
        exact starts_of_takeValue (show takeValue fuel cs = taken (some name) Json.null rest from he)
    · rename_i item left he
      exact starts_of_takeValue (show takeValue fuel cs = taken none item left from he)

/-! ## Words and numbers -/

/-- A text whose whole digits are taken begins with a digit. -/
theorem isDigit_of_takeWhole? {c : Char} {tail whole rest : List Char}
    (h : takeWhole? (c :: tail) = some (whole, rest)) :
    c.isDigit = true := by
  rw [takeWhole?] at h
  split at h
  · rename_i h0
    rw [h0]
    rfl
  split at h
  · rename_i hd
    exact hd
  · cases h

/-- Before a digit the reader is neither at a word nor at a name. -/
theorem takeScalar_of_digit {c : Char} {tail : List Char} (h : c.isDigit = true) :
    takeScalar (c :: tail) = takeNumber (c :: tail) ∧
      takeScalar ('-' :: c :: tail) = takeNumber ('-' :: c :: tail) := by
  have hne : ∀ d : Char, d.isDigit = false → (d == c) = false := by
    intro d hd
    rw [beq_eq_false_iff_ne]
    rintro rfl
    rw [h] at hd
    cases hd
  simp [takeScalar, words, constants, List.find?, List.isPrefixOf, hne 'n' rfl, hne 't' rfl, hne 'f' rfl, hne 'N' rfl,
    hne 'I' rfl, hne '-' rfl]

/-- A text that is taken as a number is not taken as anything else. -/
theorem takeValue_of_takeNumber {cs rest : List Char} {v : Json} (fuel : Nat) (h : takeNumber cs = .ok (v, rest)) :
    takeValue (fuel + 1) cs = .ok (v, rest) := by
  cases cs with
  | nil => cases h
  | cons c tail =>
    by_cases hminus : c = '-'
    · subst hminus
      cases tail with
      | nil => cases h
      | cons d tail =>
        have hd : d.isDigit = true := by
          cases hw : takeWhole? (d :: tail) with
          | none => simp [takeNumber, hw] at h
          | some p => exact isDigit_of_takeWhole? hw
        rw [takeValue]
        simp only [Char.reduceEq, if_false, (takeScalar_of_digit hd).2, h]
    · have hd : c.isDigit = true := by
        cases hw : takeWhole? (c :: tail) with
        | none => simp [takeNumber, hminus, hw] at h
        | some p => exact isDigit_of_takeWhole? hw
      have hne : ∀ d : Char, d.isDigit = false → c ≠ d := by
        rintro d hd' rfl
        rw [hd] at hd'
        cases hd'
      rw [takeValue, if_neg (hne _ rfl), if_neg (hne _ rfl), if_neg (hne _ rfl), (takeScalar_of_digit hd).1, h]

/-! ## Lines -/

/-- The characters of the start of a line. -/
def lineStart (depth : Nat) : List Char := '\n' :: List.replicate (2 * depth) ' '

theorem newline_eq (depth : Nat) : newline depth = Text.ofChars (lineStart depth) := by
  simp [newline, lineStart, Text.ofChars]

theorem skipBlanks_lineStart (depth : Nat) (cs : List Char) : skipBlanks (lineStart depth ++ cs) = skipBlanks cs := by
  have hall : ∀ c ∈ lineStart depth, isBlank c = true := by
    intro c hc
    rcases List.mem_cons.mp hc with rfl | hc
    · rfl
    · rw [List.eq_of_mem_replicate hc]
      rfl
  exact List.dropWhile_append_of_pos hall

/-- Characters that begin with the start of a line. -/
theorem ofChars_eq_newline_append {cs : List Char} {depth : Nat} {t : Text} (h : Text.ofChars cs = newline depth ++ t) :
    ∃ b, cs = lineStart depth ++ b ∧ Text.ofChars b = t :=
  Text.ofChars_eq_ofChars_append (newline_eq depth ▸ h)

/-- The text of a value comes apart from the text behind it. -/
theorem renderOnto_split {depth : Nat} {cs : List Char} {after : Text} {v : Json}
    (h : Text.ofChars cs = renderOnto depth after v) :
    ∃ a b, cs = a ++ b ∧ Text.ofChars b = after ∧ Text.ofChars cs = renderOnto depth (Text.ofChars b) v := by
  have happend := renderOnto_append depth [] after v
  rw [List.nil_append] at happend
  obtain ⟨a, b, hcs, -, hb⟩ := Text.ofChars_eq_append (h.trans happend)
  exact ⟨a, b, hcs, hb, hb.symm ▸ h⟩

/-- Behind an item stands a comma and the next item, or the closing bracket on a line of its own. -/
theorem ofChars_eq_renderItems {b rest : List Char} {depth outer : Nat} {items : List Json}
    (h : Text.ofChars b = renderItems depth (newline outer ++ .char ']' :: Text.ofChars rest) items) :
    Ends b ∧ rest.length ≤ b.length ∧
      (items = [] ∧ b = lineStart outer ++ ']' :: rest ∨
        ∃ item more d, items = item :: more ∧ b = ',' :: (lineStart depth ++ d) ∧
          Text.ofChars d =
            renderOnto depth (renderItems depth (newline outer ++ .char ']' :: Text.ofChars rest) more) item) := by
  have hlen : rest.length ≤ b.length := by
    have happend := renderItems_append depth [] (newline outer ++ .char ']' :: Text.ofChars rest) items
    have hcount := congrArg List.length (h.trans happend)
    simp only [Text.ofChars, List.length_map, List.length_append, List.length_cons] at hcount
    omega
  cases items with
  | nil =>
    obtain ⟨c, rfl, hc⟩ := ofChars_eq_newline_append h
    obtain ⟨e, rfl, he⟩ := Text.ofChars_eq_cons hc
    rw [Text.eq_of_ofChars he] at hlen ⊢
    exact ⟨ends_newline _, hlen, .inl ⟨rfl, rfl⟩⟩
  | cons item more =>
    obtain ⟨c, rfl, hc⟩ := Text.ofChars_eq_cons h
    obtain ⟨d, rfl, hd⟩ := ofChars_eq_newline_append hc
    exact ⟨ends_comma _, hlen, .inr ⟨item, more, d, rfl, rfl, hd⟩⟩

/-- Behind a member stands a comma and the next member, or the closing brace on a line of its own. -/
theorem ofChars_eq_renderMembers {b rest : List Char} {depth outer : Nat} {members : Members}
    (h : Text.ofChars b = renderMembers depth (newline outer ++ .char '\x7d' :: Text.ofChars rest) members) :
    Ends b ∧ rest.length ≤ b.length ∧
      (members = [] ∧ b = lineStart outer ++ '\x7d' :: rest ∨
        ∃ key value more d, members = (key, value) :: more ∧ b = ',' :: (lineStart depth ++ d) ∧
          Text.ofChars d = literal key ++ .char ':' :: .char ' ' :: renderOnto depth
            (renderMembers depth (newline outer ++ .char '\x7d' :: Text.ofChars rest) more) value) := by
  have hlen : rest.length ≤ b.length := by
    have happend := renderMembers_append depth [] (newline outer ++ .char '\x7d' :: Text.ofChars rest) members
    have hcount := congrArg List.length (h.trans happend)
    simp only [Text.ofChars, List.length_map, List.length_append, List.length_cons] at hcount
    omega
  cases members with
  | nil =>
    obtain ⟨c, rfl, hc⟩ := ofChars_eq_newline_append h
    obtain ⟨e, rfl, he⟩ := Text.ofChars_eq_cons hc
    rw [Text.eq_of_ofChars he] at hlen ⊢
    exact ⟨ends_newline _, hlen, .inl ⟨rfl, rfl⟩⟩
  | cons member more =>
    obtain ⟨key, value⟩ := member
    obtain ⟨c, rfl, hc⟩ := Text.ofChars_eq_cons h
    obtain ⟨d, rfl, hd⟩ := ofChars_eq_newline_append hc
    exact ⟨ends_comma _, hlen, .inr ⟨key, value, more, d, rfl, rfl, hd⟩⟩

/-- A member comes apart into its name, which is read back, and its value. -/
theorem takeString_member {d : List Char} {key after : Text}
    (h : Text.ofChars d = literal key ++ .char ':' :: .char ' ' :: after) :
    ∃ body g, d = '"' :: body ∧ takeString d body = .ok (key, ':' :: ' ' :: g) ∧ Text.ofChars g = after ∧
      g.length < d.length := by
  obtain ⟨a, e, hd, ha, he⟩ := Text.ofChars_eq_append h
  obtain ⟨f, rfl, hf⟩ := Text.ofChars_eq_cons he
  obtain ⟨g, rfl, hg⟩ := Text.ofChars_eq_cons hf
  have hliteral : Text.ofChars d = literal key ++ Text.ofChars (':' :: ' ' :: g) := by
    rw [h, ← hg]
    rfl
  obtain ⟨body, hbody, htake⟩ := takeString_literal hliteral
  refine ⟨body, g, hbody, htake, hg, ?_⟩
  rw [hd]
  simp only [List.length_append, List.length_cons]
  omega

/-! ## Values -/

/-- A word that was written is read back. -/
theorem takeValue_word {word : List Char} {v : Json} (h : (word, v) ∈ words) (fuel : Nat) (rest : List Char) :
    takeValue (fuel + 1) (word ++ rest) = .ok (v, rest) := by
  simp only [words, List.mem_cons, List.not_mem_nil, or_false, Prod.mk.injEq] at h
  rcases h with ⟨rfl, rfl⟩ | ⟨rfl, rfl⟩ | ⟨rfl, rfl⟩ <;> rfl

/-- The name of a number that JSON does not have is refused. -/
theorem takeValue_constant {name : List Char} (h : name ∈ constants) (fuel : Nat) (rest : List Char) :
    takeValue (fuel + 1) (name ++ rest) = .error (.constant name) := by
  simp only [constants, List.mem_cons, List.not_mem_nil, or_false] at h
  rcases h with rfl | rfl | rfl <;> rfl

/-- A double that was written is read back, or refused by its name. -/
theorem takeValue_double (x : Double) (fuel : Nat) {rest : List Char} (hr : Ends rest) :
    takeValue (fuel + 1) (NumberLayout.document.double x ++ rest) =
      taken (constantIn? (Json.double x).values) (.double x) rest := by
  cases x with
  | finite negative x => exact takeValue_of_takeNumber fuel (takeNumber_double negative x hr)
  | infinite negative => cases negative <;> exact takeValue_constant (by decide) fuel rest
  | nan => exact takeValue_constant (by decide) fuel rest

/-- Behind a value stands at least what it was written in front of. -/
theorem length_le_of_renderOnto {depth : Nat} {cs rest : List Char} {v : Json}
    (h : Text.ofChars cs = renderOnto depth (Text.ofChars rest) v) : rest.length ≤ cs.length := by
  obtain ⟨a, b, rfl, hb, -⟩ := renderOnto_split h
  rw [Text.eq_of_ofChars hb, List.length_append]
  omega

mutual

/-- A value that was written is read back, and what stood behind it is left; or its first name that is refused is. -/
theorem takeValue_render (fuel : Nat) {depth : Nat} {cs rest : List Char} {v : Json} (hv : v.Readable) (hr : Ends rest)
    (h : Text.ofChars cs = renderOnto depth (Text.ofChars rest) v)
    (hfuel : 2 * cs.length + 1 ≤ fuel + 2 * rest.length) :
    takeValue fuel cs = taken (constantIn? v.values) v rest := by
  have hlen := length_le_of_renderOnto h
  obtain ⟨fuel, rfl⟩ : ∃ n, fuel = n + 1 := ⟨fuel - 1, by omega⟩
  match v with
  | .null =>
    obtain ⟨b, rfl, hb⟩ := Text.ofChars_eq_ofChars_append h
    rw [Text.eq_of_ofChars hb]
    exact takeValue_word (by simp [words]) fuel rest
  | .bool true =>
    obtain ⟨b, rfl, hb⟩ := Text.ofChars_eq_ofChars_append h
    rw [Text.eq_of_ofChars hb]
    exact takeValue_word (by simp [words]) fuel rest
  | .bool false =>
    obtain ⟨b, rfl, hb⟩ := Text.ofChars_eq_ofChars_append h
    rw [Text.eq_of_ofChars hb]
    exact takeValue_word (by simp [words]) fuel rest
  | .int n =>
    rw [renderOnto, ofInt_eq] at h
    obtain ⟨b, rfl, hb⟩ := Text.ofChars_eq_ofChars_append h
    rw [Text.eq_of_ofChars hb]
    exact takeValue_of_takeNumber fuel (takeNumber_int hv.self.2 hr)
  | .double x =>
    obtain ⟨b, rfl, hb⟩ := Text.ofChars_eq_ofChars_append h
    rw [Text.eq_of_ofChars hb]
    exact takeValue_double x fuel hr
  | .str t =>
    obtain ⟨body, rfl, hbody⟩ := takeString_literal h
    rw [takeValue, if_pos rfl, hbody]
    rfl
  | .arr [] =>
    obtain ⟨b, rfl, hb⟩ := Text.ofChars_eq_ofChars_append (a := ['[', ']']) h
    rw [Text.eq_of_ofChars hb]
    rfl
  | .arr (item :: more) =>
    rw [renderOnto] at h
    obtain ⟨c, rfl, hc⟩ := Text.ofChars_eq_cons h
    obtain ⟨d, rfl, hd⟩ := ofChars_eq_newline_append hc
    have hitems := takeItems_render fuel (all_arr.mp hv).2 hd (by
      simp only [lineStart, List.length_cons, List.length_append] at hfuel
      omega)
    have hstarts := starts_of_takeItems hitems
    rw [takeValue, if_neg (by decide), if_neg (by decide), if_pos rfl, skipBlanks_lineStart, hstarts.skipBlanks]
    split
    · obtain ⟨e, tail, he, -, hne, -⟩ := hstarts
      cases he
      exact absurd rfl hne
    · rw [hitems, as_taken]
      rfl
  | .obj [] =>
    obtain ⟨b, rfl, hb⟩ := Text.ofChars_eq_ofChars_append (a := ['\x7b', '\x7d']) h
    rw [Text.eq_of_ofChars hb]
    rfl
  | .obj ((key, value) :: more) =>
    rw [renderOnto] at h
    obtain ⟨c, rfl, hc⟩ := Text.ofChars_eq_cons h
    obtain ⟨d, rfl, hd⟩ := ofChars_eq_newline_append hc
    have hmembers := takeMembers_render fuel (all_obj.mp hv).2 hd (by
      simp only [lineStart, List.length_cons, List.length_append] at hfuel
      omega)
    obtain ⟨body, -, rfl, -⟩ := takeString_member hd
    rw [takeValue, if_neg (by decide), if_pos rfl, skipBlanks_lineStart]
    show Taken.as (fun pairs => Json.obj (Members.ofPairs pairs)) (takeMembers fuel ('"' :: body)) = _
    rw [hmembers, as_taken, Members.ofPairs_of_nodup hv.self.1]
    rfl
termination_by fuel

/-- The items of an array that was written are read back. -/
theorem takeItems_render (fuel : Nat) {depth outer : Nat} {d rest : List Char} {item : Json} {more : List Json}
    (hv : ∀ v ∈ item :: more, v.Readable)
    (h : Text.ofChars d =
      renderOnto depth (renderItems depth (newline outer ++ .char ']' :: Text.ofChars rest) more) item)
    (hfuel : 2 * d.length + 2 ≤ fuel + 2 * rest.length) :
    takeItems fuel d = taken (constantIn? (itemValues (item :: more))) (item :: more) rest := by
  obtain ⟨a, b, hab, hb, hitem⟩ := renderOnto_split h
  obtain ⟨hends, hlen, hbehind⟩ := ofChars_eq_renderItems hb
  have hd : d.length = a.length + b.length := by rw [hab, List.length_append]
  obtain ⟨fuel, rfl⟩ : ∃ n, fuel = n + 1 := ⟨fuel - 1, by omega⟩
  have htake := takeValue_render fuel (hv item List.mem_cons_self) hends hitem (by omega)
  rw [takeItems, htake, itemValues, constantIn?_append]
  cases constantIn? item.values with
  | some name => rfl
  | none =>
    rcases hbehind with ⟨rfl, rfl⟩ | ⟨next, more, e, rfl, rfl, he⟩
    · simp only [taken, skipBlanks_lineStart]
      rfl
    · have hrest := takeItems_render fuel (fun v hmem => hv v (List.mem_cons_of_mem _ hmem)) he (by
        simp only [lineStart, List.length_cons, List.length_append] at hd
        omega)
      show Taken.as (item :: ·) (takeItems fuel (skipBlanks (lineStart depth ++ e))) = _
      rw [skipBlanks_lineStart, (starts_of_takeItems hrest).skipBlanks, hrest, as_taken]
      rfl
termination_by fuel

/-- The members of an object that was written are read back. -/
theorem takeMembers_render (fuel : Nat) {depth outer : Nat} {d rest : List Char} {key : Text} {value : Json}
    {more : Members}
    (hv : ∀ m ∈ (key, value) :: more, m.2.Readable)
    (h : Text.ofChars d = literal key ++ .char ':' :: .char ' ' ::
      renderOnto depth (renderMembers depth (newline outer ++ .char '\x7d' :: Text.ofChars rest) more) value)
    (hfuel : 2 * d.length + 2 ≤ fuel + 2 * rest.length) :
    takeMembers fuel d = taken (constantIn? (memberValues ((key, value) :: more))) ((key, value) :: more) rest := by
  obtain ⟨body, g, rfl, hname, hg, hlt⟩ := takeString_member h
  obtain ⟨a, b, hab, hb, hvalue⟩ := renderOnto_split hg
  obtain ⟨hends, hlen, hbehind⟩ := ofChars_eq_renderMembers hb
  have hd : g.length = a.length + b.length := by rw [hab, List.length_append]
  obtain ⟨fuel, rfl⟩ : ∃ n, fuel = n + 1 := ⟨fuel - 1, by omega⟩
  have htake := takeValue_render fuel (hv (key, value) List.mem_cons_self) hends hvalue (by omega)
  have hblanks : skipBlanks (' ' :: g) = g := (starts_of_takeValue htake).skipBlanks
  have hcolon : skipBlanks (':' :: ' ' :: g) = ':' :: ' ' :: g := rfl
  rw [takeMembers, if_pos rfl, hname]
  simp only [hcolon, hblanks, htake]
  rw [memberValues, constantIn?_append]
  cases constantIn? value.values with
  | some name => rfl
  | none =>
    rcases hbehind with ⟨rfl, rfl⟩ | ⟨next, nextValue, more, e, rfl, rfl, he⟩
    · simp only [taken, skipBlanks_lineStart]
      rfl
    · have hrest := takeMembers_render fuel (fun m hmem => hv m (List.mem_cons_of_mem _ hmem)) he (by
        simp only [lineStart, List.length_cons, List.length_append] at hd hlt hfuel
        omega)
      obtain ⟨nextBody, -, rfl, -⟩ := takeString_member he
      show Taken.as ((key, value) :: ·) (takeMembers fuel (skipBlanks (lineStart depth ++ '"' :: nextBody))) = _
      rw [skipBlanks_lineStart]
      show Taken.as ((key, value) :: ·) (takeMembers fuel ('"' :: nextBody)) = _
      rw [hrest, as_taken]
      rfl
termination_by fuel

end

end Redeclare.Json
