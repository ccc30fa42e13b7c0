import Redeclare.Proofs.Types

/-!
# Telling overloads apart

A signature can be read in one way only: two functions with the same signature have the same name and take the same
types. Names are told apart from what follows them because they hold no parenthesis, comma or bracket, and are not
empty. A type is read up to the sizes of the arrays around it, by recursion on the type, and the sizes behind that; a
comma or the closing parenthesis of the list that a type is in is no bracket, so all sizes are the type's own.
-/

namespace Redeclare.Abi

/-! ## Words -/

/-- The code points that give a signature its structure. -/
def delimiters : List Point := [.char '(', .char ')', .char ',', .char '[', .char ']']

/-- A text that can be told from what is around it in a signature: it is not empty and has no delimiter. -/
structure Word (t : Text) : Prop where
  ne_nil : t ≠ []
  undelimited : ∀ p ∈ t, p ∉ delimiters

/-- The characters of identifiers: letters, digits, `_` and `$`. -/
def inIdentifiers (c : Char) : Bool := c.isAlphanum || c == '_' || c == '$'

/-- Identifiers are words. -/
theorem word_ofChars {cs : List Char} (hne : cs ≠ []) (h : cs.all inIdentifiers = true) : Word (Text.ofChars cs) := by
  constructor
  · exact fun hnil => hne (List.map_eq_nil_iff.mp hnil)
  · intro p hp hmem
    obtain ⟨c, hc, rfl⟩ := List.mem_map.mp hp
    have hidentifier : inIdentifiers c = true := List.all_eq_true.mp h c hc
    simp only [delimiters, List.mem_cons, Point.char.injEq, List.not_mem_nil, or_false] at hmem
    rcases hmem with rfl | rfl | rfl | rfl | rfl <;> revert hidentifier <;> decide

/-- A text that goes on with a delimiter, or ends. -/
def Stops (rest : Text) : Prop := ∀ p ∈ rest.head?, p ∈ delimiters

theorem stops_cons {p : Point} (h : p ∈ delimiters) (rest : Text) : Stops (p :: rest) := by
  intro q hq
  cases hq
  exact h

/-- A word does not begin with a delimiter. -/
theorem Word.append_ne {t : Text} {p : Point} (ht : Word t) (hp : p ∈ delimiters) (rest tail : Text) :
    t ++ rest ≠ p :: tail := by
  obtain ⟨q, word, rfl⟩ := List.exists_cons_of_ne_nil ht.ne_nil
  intro h
  rw [List.cons_append, List.cons.injEq] at h
  exact ht.undelimited q List.mem_cons_self (h.1 ▸ hp)

/-- Where a text without delimiters ends shows in what follows it. -/
theorem append_inj_of_stops {a b rest rest' : Text} (ha : ∀ p ∈ a, p ∉ delimiters) (hb : ∀ p ∈ b, p ∉ delimiters)
    (hrest : Stops rest) (hrest' : Stops rest') (h : a ++ rest = b ++ rest') : a = b ∧ rest = rest' := by
  induction a generalizing b with
  | nil =>
    cases b with
    | nil => exact ⟨rfl, h⟩
    | cons q b =>
      rw [List.nil_append] at h
      rw [h] at hrest
      exact absurd (hrest q rfl) (hb q List.mem_cons_self)
  | cons p a ih =>
    cases b with
    | nil =>
      rw [List.nil_append] at h
      rw [← h] at hrest'
      exact absurd (hrest' p rfl) (ha p List.mem_cons_self)
    | cons q b =>
      rw [List.cons_append, List.cons_append, List.cons.injEq] at h
      obtain ⟨rfl, h⟩ := h
      obtain ⟨rfl, hsame⟩ :=
        ih (fun r hr => ha r (List.mem_cons_of_mem _ hr)) (fun r hr => hb r (List.mem_cons_of_mem _ hr)) h
      exact ⟨rfl, hsame⟩

/-! ## Sizes of arrays -/

theorem digitPoint_not_mem (d : Fin 10) : digitPoint d ∉ delimiters := by
  revert d
  decide

theorem digitPoint_injective : Function.Injective digitPoint := by
  unfold Function.Injective
  decide

/-- The digits of a size can be read off its text. -/
theorem ArraySize.text_append_inj {size size' : ArraySize} {rest rest' : Text}
    (h : size.text ++ rest = size'.text ++ rest') : size = size' ∧ rest = rest' := by
  have hundelimited : ∀ digits : List (Fin 10), ∀ p ∈ digits.map digitPoint, p ∉ delimiters := by
    intro digits p hp
    obtain ⟨d, -, rfl⟩ := List.mem_map.mp hp
    exact digitPoint_not_mem d
  have hclosing : ∀ rest, Stops (.char ']' :: rest) := stops_cons (by decide)
  obtain ⟨digits⟩ := size
  obtain ⟨digits'⟩ := size'
  simp only [text, List.cons_append, List.append_assoc, List.nil_append, List.cons.injEq, true_and] at h
  obtain ⟨hdigits, hrest⟩ :=
    append_inj_of_stops (hundelimited digits) (hundelimited digits') (hclosing rest) (hclosing rest') h
  rw [List.map_inj_right digitPoint_injective] at hdigits
  rw [List.cons.injEq] at hrest
  exact ⟨congrArg ArraySize.mk hdigits, hrest.2⟩

theorem stops_suffixes (sizes : List ArraySize) {rest : Text} (h : Stops rest) : Stops (suffixes sizes ++ rest) := by
  cases sizes with
  | nil => exact h
  | cons size sizes => exact stops_cons (by decide) _

/-- A text that does not go on with a size. -/
def Unsized (rest : Text) : Prop := rest.head? ≠ some (.char '[')

/-- All sizes are read that are there. -/
theorem suffixes_append_inj {sizes sizes' : List ArraySize} {rest rest' : Text} (hrest : Unsized rest)
    (hrest' : Unsized rest') (h : suffixes sizes ++ rest = suffixes sizes' ++ rest') :
    sizes = sizes' ∧ rest = rest' := by
  induction sizes generalizing sizes' with
  | nil =>
    cases sizes' with
    | nil => exact ⟨rfl, h⟩
    | cons size' sizes' =>
      refine absurd ?_ hrest
      rw [suffixes_nil, List.nil_append] at h
      rw [h]
      rfl
  | cons size sizes ih =>
    cases sizes' with
    | nil =>
      refine absurd ?_ hrest'
      rw [suffixes_nil, List.nil_append] at h
      rw [← h]
      rfl
    | cons size' sizes' =>
      rw [suffixes_cons, suffixes_cons, List.append_assoc, List.append_assoc] at h
      obtain ⟨rfl, htail⟩ := ArraySize.text_append_inj h
      obtain ⟨rfl, hsame⟩ := ih htail
      exact ⟨rfl, hsame⟩

/-! ## Types -/

namespace Ty

mutual

/-- The elementary names in a type. -/
def names : Ty → List Text
  | .elementary name => [name.text]
  | .tuple components => allNames components
  | .array item _ => item.names

/-- The elementary names in types. -/
def allNames : List Ty → List Text
  | [] => []
  | t :: rest => t.names ++ allNames rest

end

/-- A type without the arrays around it. -/
def core : Ty → Ty
  | .array item _ => item.core
  | t => t

/-- The sizes of the arrays around a type, the innermost first. -/
def sizes : Ty → List ArraySize
  | .array item size => item.sizes ++ [size]
  | _ => []

/-- A type is its core with the arrays around it. -/
theorem foldl_array_core (t : Ty) : t.sizes.foldl Ty.array t.core = t := by
  match t with
  | .elementary _ | .tuple _ => rfl
  | .array item size => rw [sizes, core, List.foldl_append, foldl_array_core item, List.foldl_cons, List.foldl_nil]

theorem eq_of_core {t t' : Ty} (hcore : t.core = t'.core) (hsizes : t.sizes = t'.sizes) : t = t' := by
  rw [← foldl_array_core t, hcore, hsizes, foldl_array_core]

theorem canonical_eq_core (t : Ty) : t.canonical = t.core.canonical ++ suffixes t.sizes := by
  match t with
  | .elementary _ | .tuple _ => exact (List.append_nil _).symm
  | .array item size => rw [canonical, core, sizes, canonical_eq_core item, suffixes_concat, List.append_assoc]

theorem names_core (t : Ty) : t.core.names = t.names := by
  match t with
  | .elementary _ | .tuple _ => rfl
  | .array item size => rw [core, names, names_core item]

theorem core_ne_array (t item : Ty) (size : ArraySize) : t.core ≠ .array item size := by
  match t with
  | .elementary _ | .tuple _ => nofun
  | .array item' _ => exact core_ne_array item' item size

/-- The text of a type does not begin with the end of a list. -/
theorem exists_canonical_cons {t : Ty} (ht : ∀ n ∈ t.names, Word n) :
    ∃ p tail, t.canonical = p :: tail ∧ p ≠ .char ')' := by
  match t with
  | .elementary name =>
    have hword : Word name.text := ht _ List.mem_cons_self
    obtain ⟨p, tail, htext⟩ := List.exists_cons_of_ne_nil hword.ne_nil
    refine ⟨p, tail, htext, ?_⟩
    rintro rfl
    exact hword.undelimited _ (htext ▸ List.mem_cons_self) (by decide)
  | .tuple components => exact ⟨_, _, rfl, by decide⟩
  | .array item size =>
    obtain ⟨p, tail, htext, hp⟩ := exists_canonical_cons (t := item) ht
    exact ⟨p, tail ++ size.text, by rw [canonical, htext, List.cons_append], hp⟩

theorem stops_listedMore (types : List Ty) (rest : Text) : Stops (listedMore types ++ .char ')' :: rest) := by
  cases types with
  | nil => exact stops_cons (by decide) _
  | cons t types => exact stops_cons (by decide) _

theorem unsized_listedMore (types : List Ty) (rest : Text) : Unsized (listedMore types ++ .char ')' :: rest) := by
  cases types <;> simp [Unsized, listedMore]

/-- Types are read up to the parenthesis behind them, if they are so behind commas. -/
theorem eq_of_listed {types types' : List Ty} {rest rest' : Text} (ht : ∀ n ∈ allNames types, Word n)
    (ht' : ∀ n ∈ allNames types', Word n)
    (hmore : listedMore types ++ .char ')' :: rest = listedMore types' ++ .char ')' :: rest' →
      types = types' ∧ rest = rest')
    (h : listed types ++ .char ')' :: rest = listed types' ++ .char ')' :: rest') : types = types' ∧ rest = rest' := by
  match types, types' with
  | [], [] => exact ⟨rfl, (List.cons.inj h).2⟩
  | [], t' :: _ =>
    obtain ⟨p, tail, htext, hp⟩ := exists_canonical_cons (t := t') fun n hn => ht' n (List.mem_append_left _ hn)
    rw [listed, listed, htext] at h
    exact absurd (List.cons.inj h).1.symm hp
  | t :: _, [] =>
    obtain ⟨p, tail, htext, hp⟩ := exists_canonical_cons (t := t) fun n hn => ht n (List.mem_append_left _ hn)
    rw [listed, listed, htext] at h
    exact absurd (List.cons.inj h).1 hp
  | t :: more, t' :: more' => exact hmore (congrArg (Point.char ',' :: ·) h)

mutual

/-- A type is read up to the sizes of the arrays around it. -/
theorem core_of_append {t t' : Ty} {rest rest' : Text} (ht : ∀ n ∈ t.names, Word n) (ht' : ∀ n ∈ t'.names, Word n)
    (hrest : Stops rest) (hrest' : Stops rest') (h : t.canonical ++ rest = t'.canonical ++ rest') :
    t.core = t'.core ∧ suffixes t.sizes ++ rest = suffixes t'.sizes ++ rest' := by
  match t with
  | .array item size =>
    rw [canonical, List.append_assoc] at h
    have hitem := core_of_append (t := item) ht ht' (stops_cons (by decide) _) hrest' h
    rw [core, sizes, suffixes_concat, List.append_assoc]
    exact hitem
  | .elementary name =>
    have hword : Word name.text := ht _ List.mem_cons_self
    rw [← names_core] at ht'
    rw [canonical_eq_core t', List.append_assoc] at h
    cases hcore : t'.core with
    | elementary name' =>
      rw [hcore] at h ht'
      have hword' : Word name'.text := ht' _ List.mem_cons_self
      obtain ⟨hname, hsizes⟩ :=
        append_inj_of_stops hword.undelimited hword'.undelimited hrest (stops_suffixes _ hrest') h
      obtain ⟨text, _⟩ := name
      obtain ⟨text', _⟩ := name'
      subst hname
      exact ⟨rfl, hsizes⟩
    | tuple components =>
      rw [hcore] at h
      exact absurd h (hword.append_ne (by decide) _ _)
    | array item size => exact absurd hcore (core_ne_array t' item size)
  | .tuple components =>
    rw [← names_core] at ht'
    rw [canonical_eq_core t', List.append_assoc] at h
    cases hcore : t'.core with
    | elementary name' =>
      rw [hcore] at h ht'
      have hword' : Word name'.text := ht' _ List.mem_cons_self
      exact absurd h.symm (hword'.append_ne (by decide) _ _)
    | tuple components' =>
      rw [hcore] at h ht'
      simp only [canonical, List.cons_append, List.append_assoc, List.nil_append, List.cons.injEq, true_and] at h
      obtain ⟨rfl, hsizes⟩ := eq_of_listed ht ht' (listedMore_append_inj ht ht') h
      exact ⟨rfl, hsizes⟩
    | array item size => exact absurd hcore (core_ne_array t' item size)

/-- Types behind commas are read up to the parenthesis behind them. -/
theorem listedMore_append_inj {types types' : List Ty} {rest rest' : Text} (ht : ∀ n ∈ allNames types, Word n)
    (ht' : ∀ n ∈ allNames types', Word n)
    (h : listedMore types ++ .char ')' :: rest = listedMore types' ++ .char ')' :: rest') :
    types = types' ∧ rest = rest' := by
  match types, types' with
  | [], [] => exact ⟨rfl, (List.cons.inj h).2⟩
  | [], _ :: _ => exact absurd (List.cons.inj h).1 (by decide)
  | _ :: _, [] => exact absurd (List.cons.inj h).1 (by decide)
  | t :: more, t' :: more' =>
    rw [allNames, List.forall_mem_append] at ht ht'
    simp only [listedMore, List.cons_append, List.append_assoc, List.cons.injEq, true_and] at h
    obtain ⟨hcore, hsuffixes⟩ :=
      core_of_append ht.1 ht'.1 (stops_listedMore more rest) (stops_listedMore more' rest') h
    obtain ⟨hsizes, htail⟩ :=
      suffixes_append_inj (unsized_listedMore more rest) (unsized_listedMore more' rest') hsuffixes
    obtain rfl := eq_of_core hcore hsizes
    obtain ⟨rfl, hsame⟩ := listedMore_append_inj ht.2 ht'.2 htail
    exact ⟨rfl, hsame⟩

end

/-- Types are read up to the parenthesis behind them. -/
theorem listed_append_inj {types types' : List Ty} {rest rest' : Text} (ht : ∀ n ∈ allNames types, Word n)
    (ht' : ∀ n ∈ allNames types', Word n)
    (h : listed types ++ .char ')' :: rest = listed types' ++ .char ')' :: rest') : types = types' ∧ rest = rest' :=
  eq_of_listed ht ht' (listedMore_append_inj ht ht') h

end Ty

/-! ## Signatures -/

/-- A named entry that takes types, all in words. -/
structure Legible (entry : Entry) (name : Text) (types : List Ty) : Prop where
  named : Members.get? nameName entry = some (.str name)
  takes : Takes entry types
  word : Word name
  words : ∀ n ∈ Ty.allNames types, Word n

/-- The signature of a legible entry is its name and the types that it takes. -/
theorem Legible.signature {entry : Entry} {name : Text} {types : List Ty} (h : Legible entry name types) :
    signature entry = .ok (name ++ (.char '(' :: Ty.listed types ++ [.char ')'])) :=
  signature_of_inputTypes h.named h.takes.inputTypes

/-- Two legible entries have the same signature exactly when they have the same name and take the same types. -/
theorem signature_eq_iff {entry entry' : Entry} {name name' : Text} {types types' : List Ty}
    (h : Legible entry name types) (h' : Legible entry' name' types') :
    signature entry = signature entry' ↔ name = name' ∧ types = types' := by
  rw [h.signature, h'.signature, Except.ok.injEq]
  constructor
  · intro hsame
    have hopening : ∀ rest, Stops (.char '(' :: rest) := stops_cons (by decide)
    obtain ⟨hname, hlisted⟩ :=
      append_inj_of_stops h.word.undelimited h'.word.undelimited (hopening _) (hopening _) hsame
    exact ⟨hname, (Ty.listed_append_inj h.words h'.words (List.cons.inj hlisted).2).1⟩
  · rintro ⟨rfl, rfl⟩
    rfl

/-- A parameter of an elementary type. -/
def plainParameter (type : String) : Json := .obj (membersOf [("type", textValue type)])

/-- A parameter that is a tuple. -/
def tupleParameter (components : List Json) : Json :=
  .obj (membersOf [("components", .arr components), ("type", textValue "tuple")])

/-- A function `f` that takes these parameters. -/
def functionF (inputs : List Json) : Entry := membersOf [("name", textValue "f"), ("inputs", .arr inputs)]

/-- The signatures of two functions of one name differ in where a parenthesis closes. -/
theorem signature_eq_iff_overloads :
    Legible (functionF [tupleParameter [plainParameter "bool", tupleParameter []], plainParameter "bool"])
        (Text.ofString "f") [.tuple [boolType, .tuple []], boolType] ∧
      Legible (functionF [tupleParameter [plainParameter "bool", tupleParameter [plainParameter "bool"]]])
        (Text.ofString "f") [.tuple [boolType, .tuple [boolType]]] ∧
      signature (functionF [tupleParameter [plainParameter "bool", tupleParameter []], plainParameter "bool"]) ≠
        signature (functionF [tupleParameter [plainParameter "bool", tupleParameter [plainParameter "bool"]]]) := by
  have hwords : Word (Text.ofString "f") ∧ Word (Text.ofString "bool") := by
    constructor <;> exact word_ofChars (by decide) (by decide)
  have hbool : Represents [] (plainParameter "bool") boolType := .elementary rfl
  have hfirst : Legible (functionF [tupleParameter [plainParameter "bool", tupleParameter []], plainParameter "bool"])
      (Text.ofString "f") [.tuple [boolType, .tuple []], boolType] := by
    refine ⟨rfl, .listed rfl (.cons (.tuple rfl rfl ?_) (.cons hbool .nil)), hwords.1, ?_⟩
    · exact .cons hbool (.cons (.tuple rfl rfl .nil) .nil)
    · simp [Ty.allNames, Ty.names, boolType, hwords.2]
  have hsecond : Legible (functionF [tupleParameter [plainParameter "bool", tupleParameter [plainParameter "bool"]]])
      (Text.ofString "f") [.tuple [boolType, .tuple [boolType]]] := by
    refine ⟨rfl, .listed rfl (.cons (.tuple rfl rfl ?_) .nil), hwords.1, ?_⟩
    · exact .cons hbool (.cons (.tuple rfl rfl (.cons hbool .nil)) .nil)
    · simp [Ty.allNames, Ty.names, boolType, hwords.2]
  refine ⟨hfirst, hsecond, fun hsame => ?_⟩
  cases ((signature_eq_iff hfirst hsecond).mp hsame).2

end Redeclare.Abi
