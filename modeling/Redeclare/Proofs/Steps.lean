import Redeclare.Proofs.Literals

/-!
# One step of the reader

What the reader does at the first character of a value, and how it goes through the items of an array and the members of
an object: it takes one, and behind it finds the end or a comma. Items and members are gone through in the same way, so
that what holds of one step is said once for both.
-/

namespace Redeclare.Json

/-- What was taken and made into something else was taken. -/
theorem exists_of_as {α β : Type} {f : α → β} {t : Taken α} {b : β} {rest : List Char} (h : t.as f = .ok (b, rest)) :
    ∃ a, t = .ok (a, rest) ∧ b = f a := by
  cases t with
  | error e => cases h
  | ok p =>
    obtain ⟨a, left⟩ := p
    cases h
    exact ⟨a, rfl, rfl⟩

theorem eq_error_of_as {α β : Type} {f : α → β} {taken : Taken α} {e : Stop} (h : taken.as f = .error e) :
    taken = .error e := by
  cases taken with
  | error e' =>
    cases h
    rfl
  | ok q => cases h

/-! ## Blanks -/

/-- Behind the blanks stands nothing, or something that is no blank. -/
theorem skipBlanks_cases (cs : List Char) :
    skipBlanks cs = [] ∨ ∃ c rest, skipBlanks cs = c :: rest ∧ isBlank c = false := by
  cases h : skipBlanks cs with
  | nil => exact .inl rfl
  | cons c rest =>
    have hc := List.head?_dropWhile_not isBlank cs
    rw [show cs.dropWhile isBlank = c :: rest from h] at hc
    exact .inr ⟨c, rest, rfl, by simpa using hc⟩

/-- What is no blank is not skipped. -/
theorem skipBlanks_cons {c : Char} (h : isBlank c = false) (rest : List Char) : skipBlanks (c :: rest) = c :: rest := by
  simp [skipBlanks, h]

/-! ## Words, names and numbers -/

section
variable {cs : List Char}

theorem takeScalar_word {p : List Char × Json} (h : (words.find? fun p => p.1.isPrefixOf cs) = some p) :
    takeScalar cs = .ok (p.2, cs.drop p.1.length) := by
  unfold takeScalar
  split
  · rename_i word value hword
    cases Option.some.inj (hword.symm.trans h)
    rfl
  · rename_i hnone
    cases hnone.symm.trans h

theorem takeScalar_constant {name : List Char} (hword : (words.find? fun p => p.1.isPrefixOf cs) = none)
    (h : (constants.find? fun name => name.isPrefixOf cs) = some name) : takeScalar cs = .error (.constant name) := by
  unfold takeScalar
  split
  · rename_i word value hsome
    cases hsome.symm.trans hword
  · rw [h]

theorem takeScalar_number (hword : (words.find? fun p => p.1.isPrefixOf cs) = none)
    (h : (constants.find? fun name => name.isPrefixOf cs) = none) : takeScalar cs = takeNumber cs := by
  unfold takeScalar
  split
  · rename_i word value hsome
    cases hsome.symm.trans hword
  · rw [h]

end

/-! ## Values by their first character -/

section
variable (fuel : Nat) {rest left : List Char}

theorem takeValue_quote : takeValue (fuel + 1) ('"' :: rest) = Taken.as .str (takeString ('"' :: rest) rest) := by
  rw [takeValue, if_pos rfl]

theorem takeValue_bracket (h : (skipBlanks rest).head? ≠ some ']') :
    takeValue (fuel + 1) ('[' :: rest) = Taken.as .arr (takeItems fuel (skipBlanks rest)) := by
  rw [takeValue, if_neg (by decide), if_neg (by decide), if_pos rfl]
  split
  · rename_i heq
    simp [heq] at h
  · rfl

theorem takeValue_brackets (h : skipBlanks rest = ']' :: left) :
    takeValue (fuel + 1) ('[' :: rest) = .ok (.arr [], left) := by
  rw [takeValue, if_neg (by decide), if_neg (by decide), if_pos rfl, h]
  rfl

theorem takeValue_brace (h : (skipBlanks rest).head? ≠ some '\x7d') :
    takeValue (fuel + 1) ('\x7b' :: rest) =
      Taken.as (fun pairs => .obj (Members.ofPairs pairs)) (takeMembers fuel (skipBlanks rest)) := by
  rw [takeValue, if_neg (by decide), if_pos rfl]
  split
  · rename_i heq
    simp [heq] at h
  · rfl

theorem takeValue_braces (h : skipBlanks rest = '\x7d' :: left) :
    takeValue (fuel + 1) ('\x7b' :: rest) = .ok (.obj [], left) := by
  rw [takeValue, if_neg (by decide), if_pos rfl, h]
  rfl

theorem takeValue_scalar {c : Char} (hquote : c ≠ '"') (hbrace : c ≠ '\x7b') (hbracket : c ≠ '[') :
    takeValue (fuel + 1) (c :: rest) = takeScalar (c :: rest) := by
  rw [takeValue, if_neg hquote, if_neg hbrace, if_neg hbracket]

/-- A value begins with a quote, a bracket or a brace, or it is a word or a number. -/
theorem first_cases (c : Char) : c = '"' ∨ c = '[' ∨ c = '\x7b' ∨ c ≠ '"' ∧ c ≠ '\x7b' ∧ c ≠ '[' := by
  by_cases hquote : c = '"'
  · exact .inl hquote
  by_cases hbracket : c = '['
  · exact .inr (.inl hbracket)
  by_cases hbrace : c = '\x7b'
  · exact .inr (.inr (.inl hbrace))
  · exact .inr (.inr (.inr ⟨hquote, hbrace, hbracket⟩))

end

/-! ## Items and members -/

/-- A name, a colon and a value at the front of a text. -/
def takeMember (fuel : Nat) : List Char → Taken (Text × Json)
  | [] => .error (.malformed .name [])
  | c :: rest =>
    if c = '"' then
      match takeString (c :: rest) rest with
      | .error e => .error e
      | .ok (key, rest) =>
        match skipBlanks rest with
        | [] => .error (.malformed .colon [])
        | c :: rest =>
          if c = ':' then Taken.as (key, ·) (takeValue fuel (skipBlanks rest))
          else .error (.malformed .colon (c :: rest))
    else .error (.malformed .name (c :: rest))

section
variable {α : Type} (closing : Char) (one : List Char → Taken α) (next : List Char → Taken (List α))

/-- What stands behind one of several: the closing character, or a comma and the next ones. -/
def behind (a : α) (rest : List Char) : Taken (List α) :=
  match skipBlanks rest with
  | [] => .error (.malformed .comma [])
  | c :: rest =>
    if c = closing then .ok ([a], rest)
    else if c = ',' then Taken.as (a :: ·) (next (skipBlanks rest))
    else .error (.malformed .comma (c :: rest))

/-- One of several, and what stands behind it. -/
def series (cs : List Char) : Taken (List α) :=
  match one cs with
  | .error e => .error e
  | .ok (a, rest) => behind closing next a rest

variable {closing one next} {cs rest left : List Char} {a : α}

/-- The last of several. -/
theorem series_closing (hone : one cs = .ok (a, rest)) (h : skipBlanks rest = closing :: left) :
    series closing one next cs = .ok ([a], left) := by
  simp [series, hone, behind, h]

/-- One of several with a comma behind it. -/
theorem series_comma (hclosing : closing ≠ ',') (hone : one cs = .ok (a, rest)) (h : skipBlanks rest = ',' :: left) :
    series closing one next cs = Taken.as (a :: ·) (next (skipBlanks left)) := by
  simp [series, hone, behind, h, hclosing.symm]

theorem series_error {e : Stop} (hone : one cs = .error e) : series closing one next cs = .error e := by
  simp [series, hone]

/-- What was taken, if anything, was the last, or has a comma and others behind it. -/
theorem exists_of_series {items : List α} (h : series closing one next cs = .ok (items, left)) :
    ∃ a rest, one cs = .ok (a, rest) ∧
      (skipBlanks rest = closing :: left ∧ items = [a] ∨
        ∃ tail more, skipBlanks rest = ',' :: tail ∧ next (skipBlanks tail) = .ok (more, left) ∧
          items = a :: more) := by
  unfold series behind at h
  split at h
  · cases h
  · rename_i a rest hone
    refine ⟨a, rest, hone, ?_⟩
    split at h
    · cases h
    · rename_i c tail hc
      split_ifs at h with hclosing hcomma
      · cases h
        exact .inl ⟨hclosing ▸ hc, rfl⟩
      · subst hcomma
        cases hnext : next (skipBlanks tail) with
        | error e =>
          rw [hnext] at h
          cases h
        | ok p =>
          rw [hnext] at h
          cases h
          exact .inr ⟨tail, p.1, hc, hnext, rfl⟩

/-- What holds of each one that is taken holds of all of several. -/
theorem forall_of_series {p : α → Prop} {items : List α} (hone : ∀ {cs a rest}, one cs = .ok (a, rest) → p a)
    (hnext : ∀ {cs items rest}, next cs = .ok (items, rest) → ∀ a ∈ items, p a)
    (h : series closing one next cs = .ok (items, left)) : ∀ a ∈ items, p a := by
  obtain ⟨a, rest, ha, ⟨-, rfl⟩ | ⟨tail, more, -, hmore, rfl⟩⟩ := exists_of_series h
  · exact List.forall_mem_singleton.mpr (hone ha)
  · exact List.forall_mem_cons.mpr ⟨hone ha, hnext hmore⟩

end

/-- Items are gone through one by one. -/
theorem takeItems_succ (fuel : Nat) (cs : List Char) :
    takeItems (fuel + 1) cs = series ']' (takeValue fuel) (takeItems fuel) cs := by
  rw [takeItems, series]
  cases takeValue fuel cs with
  | error e => rfl
  | ok p =>
    simp only [behind]
    cases skipBlanks p.2 with
    | nil => rfl
    | cons c tail =>
      dsimp only
      split_ifs with hclosing hcomma
      · rw [hclosing]
        rfl
      · rw [hcomma]
        rfl
      · simp [hclosing, hcomma]

/-- Members are gone through one by one. -/
theorem takeMembers_succ (fuel : Nat) (cs : List Char) :
    takeMembers (fuel + 1) cs = series '\x7d' (takeMember fuel) (takeMembers fuel) cs := by
  cases cs with
  | nil => rfl
  | cons c rest =>
    rw [takeMembers, series, takeMember]
    split_ifs with hquote
    · cases takeString (c :: rest) rest with
      | error e => rfl
      | ok p =>
        obtain ⟨key, rest⟩ := p
        dsimp only
        generalize skipBlanks rest = body
        cases body with
        | nil => rfl
        | cons d tail =>
          by_cases hcolon : d = ':'
          · subst hcolon
            cases hvalue : takeValue fuel (skipBlanks tail) with
            | error e => simp [hvalue, Taken.as]
            | ok q =>
              simp only [hvalue, Taken.as, if_true, behind]
              cases skipBlanks q.2 with
              | nil => rfl
              | cons e tail =>
                dsimp only
                split_ifs with hclosing hcomma
                · rw [hclosing]
                  rfl
                · rw [hcomma]
                  rfl
                · simp [hclosing, hcomma]
          · simp [hcolon]
    · rfl

end Redeclare.Json
