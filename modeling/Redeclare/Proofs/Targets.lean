import Mathlib.Data.List.Induction
import Redeclare.Proofs.ExitStatus

/-!
# From settings to targets

Where artifacts are is told by the environment, or else by the last binding of a file of variables, or else it is the
usual directory. A path keeps the names of its text and the root at which it starts; the artifact of a contract is two
names further, and both are made of the name of the contract, so that contracts with different names have different
artifacts. A binding that comes later replaces the value of the one above it; both the values that references see and
the variables that are set in the end follow from this, by induction from the last binding backwards.
-/

namespace Redeclare

/-! ## The names in a path -/

namespace Path

/-- What a text names: the pieces between its slashes, but for empty ones and `.`. -/
def Named (t : Text) (names : List Text) : Prop :=
  ∃ pieces, pieces ≠ [] ∧ (∀ piece ∈ pieces, slash ∉ piece) ∧ Text.join [slash] pieces = t ∧
    names = pieces.filter fun piece => piece ≠ [] ∧ piece ≠ dot

/-- Where a text starts: two slashes at its front are a root of their own, one or more than two are the root. -/
inductive Anchored : Text → Anchor → Prop
  | relative {t : Text} : t.head? ≠ some slash → Anchored t .relative
  | root {t : Text} : t.head? ≠ some slash → Anchored (slash :: t) .root
  | doubleRoot {t : Text} : t.head? ≠ some slash → Anchored (slash :: slash :: t) .doubleRoot
  | manySlashes {t : Text} : Anchored (slash :: slash :: slash :: t) .root

theorem pieces_ne_nil (t : Text) : pieces t ≠ [] := by
  cases t with
  | nil => exact List.cons_ne_nil _ _
  | cons p rest =>
    rw [pieces]
    split_ifs
    · exact List.cons_ne_nil _ _
    · split <;> exact List.cons_ne_nil _ _

/-- A text that does not begin with a slash begins the first of its pieces. -/
theorem pieces_cons_of_ne {p : Point} (hp : p ≠ slash) {t piece : Text} {more : List Text}
    (h : pieces t = piece :: more) : pieces (p :: t) = (p :: piece) :: more := by
  rw [pieces, if_neg hp, h]

theorem slash_not_mem_of_mem_pieces {t : Text} : ∀ piece ∈ pieces t, slash ∉ piece := by
  induction t with
  | nil => simp [pieces]
  | cons p rest ih =>
    obtain ⟨piece, more, hpieces⟩ := List.exists_cons_of_ne_nil (pieces_ne_nil rest)
    rw [hpieces, List.forall_mem_cons] at ih
    by_cases hp : p = slash
    · rw [pieces, if_pos hp, hpieces, List.forall_mem_cons, List.forall_mem_cons]
      exact ⟨List.not_mem_nil, ih⟩
    · rw [pieces_cons_of_ne hp hpieces, List.forall_mem_cons]
      refine ⟨?_, ih.2⟩
      rw [List.mem_cons, not_or]
      exact ⟨Ne.symm hp, ih.1⟩

/-- The pieces with slashes between them are the text. -/
theorem join_pieces (t : Text) : Text.join [slash] (pieces t) = t := by
  induction t with
  | nil => rfl
  | cons p rest ih =>
    obtain ⟨piece, more, hpieces⟩ := List.exists_cons_of_ne_nil (pieces_ne_nil rest)
    rw [hpieces] at ih
    by_cases hp : p = slash
    · rw [pieces, if_pos hp, hpieces, Text.join, ih, hp]
      rfl
    · rw [pieces_cons_of_ne hp hpieces]
      cases more with
      | nil => rw [Text.join] at ih ⊢; rw [ih]
      | cons next more =>
        rw [Text.join] at ih ⊢
        rw [← ih]
        rfl

/-- A text without slashes is one piece. -/
theorem pieces_of_no_slash {t : Text} (h : slash ∉ t) : pieces t = [t] := by
  induction t with
  | nil => rfl
  | cons p rest ih =>
    rw [List.mem_cons, not_or] at h
    exact pieces_cons_of_ne (Ne.symm h.1) (ih h.2)

theorem named_parse (t : Text) : Named t (parse t).names := by
  refine ⟨pieces t, pieces_ne_nil t, slash_not_mem_of_mem_pieces, join_pieces t, ?_⟩
  refine List.filter_congr fun piece _ => ?_
  simp [isName, bne, Bool.beq_eq_decide_eq]

/-- A text with another character at its front has no slashes there. -/
theorem takeWhile_slash_of_head {t : Text} (h : t.head? ≠ some slash) : t.takeWhile (· == slash) = [] := by
  cases t with
  | nil => rfl
  | cons p rest =>
    have hp : p ≠ slash := by simpa using h
    simp [hp]

theorem anchored_parse (t : Text) : Anchored t (parse t).anchor := by
  show Anchored t (anchorOf t)
  -- the slashes at the front, up to the third
  by_cases hnone : t.head? = some slash
  · obtain ⟨t, rfl⟩ := List.head?_eq_some_iff.mp hnone
    by_cases hone : t.head? = some slash
    · obtain ⟨t, rfl⟩ := List.head?_eq_some_iff.mp hone
      by_cases htwo : t.head? = some slash
      · obtain ⟨t, rfl⟩ := List.head?_eq_some_iff.mp htwo
        have hanchor : anchorOf (slash :: slash :: slash :: t) = .root := by simp [anchorOf]
        exact hanchor ▸ .manySlashes
      · have hanchor : anchorOf (slash :: slash :: t) = .doubleRoot := by simp [anchorOf, takeWhile_slash_of_head htwo]
        exact hanchor ▸ .doubleRoot htwo
    · have hanchor : anchorOf (slash :: t) = .root := by simp [anchorOf, takeWhile_slash_of_head hone]
      exact hanchor ▸ .root hone
  · have hanchor : anchorOf t = .relative := by simp [anchorOf, takeWhile_slash_of_head hnone]
    exact hanchor ▸ .relative hnone

/-- A text without slashes that is neither empty nor `.` is a name. -/
theorem parse_of_name {t : Text} (hslash : slash ∉ t) (hne : t ≠ []) (hdot : t ≠ dot) :
    parse t = ⟨.relative, [t]⟩ := by
  have hhead : t.head? ≠ some slash := fun h => hslash (List.mem_of_mem_head? h)
  have hanchor : anchorOf t = .relative := by simp [anchorOf, takeWhile_slash_of_head hhead]
  have hname : isName t = true := by simp [isName, hne, hdot]
  rw [parse, hanchor, pieces_of_no_slash hslash, List.filter_singleton, hname]
  rfl

/-- A path without a root leads on from the directory in front of it. -/
theorem append_relative (p : Path) (names : List Text) :
    p ++ (⟨.relative, names⟩ : Path) = ⟨p.anchor, p.names ++ names⟩ := rfl

end Path

/-! ## Artifacts of contracts -/

namespace Settings

variable {contract other : Text}

/-- A name with an ending is a name, also that of a contract without a name or with one that leads nowhere. -/
theorem parse_ending {contract ending : Text} (hslash : Path.slash ∉ contract) (hending : Path.slash ∉ ending)
    (hlength : 2 ≤ ending.length) : Path.parse (contract ++ ending) = ⟨.relative, [contract ++ ending]⟩ := by
  have hlong : 2 ≤ (contract ++ ending).length := by
    rw [List.length_append]
    omega
  apply Path.parse_of_name
  · rw [List.mem_append, not_or]
    exact ⟨hslash, hending⟩
  · intro hnil
    rw [hnil] at hlong
    exact absurd hlong (by decide)
  · intro hdot
    rw [hdot] at hlong
    exact absurd hlong (by decide)

/-- The artifact of a contract is two names further than the directory of artifacts. -/
theorem artifact_eq (s : Settings) (hslash : Path.slash ∉ contract) :
    s.artifact (.str contract) =
      ⟨s.out.anchor, s.out.names ++ [contract ++ Text.ofString ".sol", contract ++ Text.ofString ".json"]⟩ := by
  have hsource : Path.parse (contract ++ Text.ofString ".sol") = ⟨.relative, [contract ++ Text.ofString ".sol"]⟩ :=
    parse_ending hslash (by decide) (by decide)
  have hartifact : Path.parse (contract ++ Text.ofString ".json") = ⟨.relative, [contract ++ Text.ofString ".json"]⟩ :=
    parse_ending hslash (by decide) (by decide)
  show s.out ++ Path.parse (contract ++ Text.ofString ".sol") ++ Path.parse (contract ++ Text.ofString ".json") = _
  rw [hsource, hartifact, Path.append_relative, Path.append_relative, List.append_assoc]
  rfl

/-- Contracts with different names have different artifacts. -/
theorem artifact_inj (s : Settings) (hslash : Path.slash ∉ contract) (hother : Path.slash ∉ other) :
    s.artifact (.str contract) = s.artifact (.str other) ↔ contract = other := by
  constructor
  · intro h
    rw [artifact_eq s hslash, artifact_eq s hother, Path.mk.injEq] at h
    have hnames := List.append_cancel_left h.2
    rw [List.cons.injEq] at hnames
    exact List.append_cancel_right hnames.1
  · rintro rfl
    rfl

end Settings

/-! ## Variables -/

namespace Environment

/-- Names with their values, or with none. -/
abbrev Bound := List (Text × Option Text)

/-- The value of the first pair with a name. -/
def valueOf? {α : Type} (pairs : List (Text × α)) (name : Text) : Option α :=
  (pairs.find? (·.1 == name)).map (·.2)

section
variable {α : Type} {pairs : List (Text × α)} {name other : Text}

theorem valueOf?_cons (name other : Text) (a : α) (pairs : List (Text × α)) :
    valueOf? ((other, a) :: pairs) name = if other = name then some a else valueOf? pairs name := by
  by_cases h : other = name
  · simp [valueOf?, h]
  · simp [valueOf?, h]

theorem valueOf?_eq_none_iff : valueOf? pairs name = none ↔ name ∉ pairs.map (·.1) := by
  simp only [valueOf?, Option.map_eq_none_iff, List.find?_eq_none, beq_iff_eq, List.mem_map, not_exists, not_and]

theorem valueOf?_cons_eq_some_iff {a b : α} (h : other ∉ pairs.map (·.1)) :
    valueOf? ((other, a) :: pairs) name = some b ↔ other = name ∧ a = b ∨ valueOf? pairs name = some b := by
  rw [valueOf?_cons]
  split_ifs with heq
  · subst heq
    simp [valueOf?_eq_none_iff.mpr h]
  · simp [heq]

theorem valueOf?_append (xs ys : List (Text × α)) (name : Text) :
    valueOf? (xs ++ ys) name = (valueOf? xs name).or (valueOf? ys name) := by
  rw [valueOf?, List.find?_append, Option.map_or]
  rfl

end

/-! ### The last binding counts -/

/-- Pairs with a value for a name: in the place of the one that it has, or behind the others. -/
def rebind (known : Bound) (name : Text) (value : Option Text) : Bound :=
  if known.any (·.1 == name) then known.map fun k => if k.1 = name then (k.1, value) else k
  else known ++ [(name, value)]

theorem any_eq_true_iff {known : Bound} {name : Text} :
    known.any (·.1 == name) = true ↔ name ∈ known.map (·.1) := by
  simp

theorem names_rebind (known : Bound) (name : Text) (value : Option Text) :
    (rebind known name value).map (·.1) =
      if name ∈ known.map (·.1) then known.map (·.1) else known.map (·.1) ++ [name] := by
  unfold rebind
  simp only [any_eq_true_iff]
  split_ifs with h
  · rw [List.map_map]
    refine List.map_congr_left fun k _ => ?_
    simp only [Function.comp_apply]
    split <;> rfl
  · rw [List.map_append]
    rfl

theorem nodup_rebind {known : Bound} (h : (known.map (·.1)).Nodup) (name : Text) (value : Option Text) :
    ((rebind known name value).map (·.1)).Nodup := by
  rw [names_rebind]
  split_ifs with hmem
  · exact h
  · rw [List.nodup_append]
    refine ⟨h, by simp, ?_⟩
    rintro a ha b hb rfl
    exact hmem (List.mem_singleton.mp hb ▸ ha)

theorem valueOf?_replace (known : Bound) (name other : Text) (value : Option Text) :
    valueOf? (known.map fun k => if k.1 = name then (k.1, value) else k) other =
      if name = other then (valueOf? known other).map fun _ => value else valueOf? known other := by
  induction known with
  | nil => simp [valueOf?]
  | cons k rest ih =>
    obtain ⟨first, old⟩ := k
    rw [List.map_cons, valueOf?_cons]
    by_cases hfirst : first = name
    · subst hfirst
      rw [if_pos rfl, valueOf?_cons, ih]
      split_ifs <;> rfl
    · rw [if_neg hfirst, valueOf?_cons, ih]
      split_ifs with hname hother
      · exact absurd (hname.trans hother.symm) hfirst
      · rfl
      · rfl
      · rfl

/-- The name has the new value, and all others have what they had. -/
theorem valueOf?_rebind (known : Bound) (name other : Text) (value : Option Text) :
    valueOf? (rebind known name value) other = if name = other then some value else valueOf? known other := by
  unfold rebind
  simp only [any_eq_true_iff]
  split_ifs with hmem heq heq
  · subst heq
    obtain ⟨old, hold⟩ := Option.ne_none_iff_exists'.mp (mt valueOf?_eq_none_iff.mp (not_not.mpr hmem))
    rw [valueOf?_replace, if_pos rfl, hold]
    rfl
  · rw [valueOf?_replace, if_neg heq]
  · subst heq
    rw [valueOf?_append, valueOf?_eq_none_iff.mpr hmem, valueOf?_cons, if_pos rfl]
    rfl
  · rw [valueOf?_append, valueOf?_cons, if_neg heq]
    simp [valueOf?]

/-- The value of a binding: its references see the environment, and behind it what is known. -/
def expanded (env : Environment) (known : Text → Option (Option Text)) (value : List Char) : Text :=
  EnvFile.expand (fun name => ((env.get? (Text.ofChars name)).map some).or (known (Text.ofChars name)))
    (value.length + 1) value

/-- What a name is bound to by bindings of which the last is given first: by the first one of this name. References in
its value see the bindings above it. -/
def boundTo? (env : Environment) : List EnvFile.Binding → Text → Option (Option Text)
  | [], _ => none
  | b :: above, name =>
    if Text.ofChars b.name = name then some (b.value.map (env.expanded (boundTo? env above)))
    else boundTo? env above name

/-- The bindings of a file come to one more binding in the same way. -/
theorem resolve_concat (env : Environment) (bindings : List EnvFile.Binding) (b : EnvFile.Binding) :
    env.resolve (bindings ++ [b]) =
      rebind (env.resolve bindings) (Text.ofChars b.name)
        (b.value.map (env.expanded (valueOf? (env.resolve bindings)))) := by
  unfold resolve
  rw [List.foldl_append, List.foldl_cons, List.foldl_nil]
  refine congrArg (rebind _ (Text.ofChars b.name)) (congrArg (Option.map · b.value) (funext fun v => ?_))
  unfold expanded
  refine congrArg (EnvFile.expand · (v.length + 1) v) (funext fun name => ?_)
  cases env.get? (Text.ofChars name) <;> rfl

theorem nodup_resolve (env : Environment) (bindings : List EnvFile.Binding) :
    ((env.resolve bindings).map (·.1)).Nodup := by
  induction bindings using List.reverseRecOn with
  | nil => exact List.nodup_nil
  | append_singleton bindings b ih =>
    rw [resolve_concat]
    exact nodup_rebind ih _ _

/-- Each name has the value of its last binding. -/
theorem valueOf?_resolve (env : Environment) (bindings : List EnvFile.Binding) :
    valueOf? (env.resolve bindings) = env.boundTo? bindings.reverse := by
  induction bindings using List.reverseRecOn with
  | nil => rfl
  | append_singleton bindings b ih =>
    funext name
    rw [resolve_concat, valueOf?_rebind, ih, List.reverse_append, List.reverse_singleton, List.singleton_append,
      boundTo?]

/-! ### Setting variables -/

/-- A variable that can be set: neither its name nor its value holds the character with number zero, and its name holds
no equals sign. -/
def Settable (name value : Text) : Prop :=
  Point.char '\x00' ∉ name ∧ Point.char '\x00' ∉ value ∧ Point.char '=' ∉ name

/-- Every variable that bindings set, because the environment does not have it, can be set. -/
def CanSet (env : Environment) (bindings : List EnvFile.Binding) : Prop :=
  ∀ name value, env.get? name = none → env.boundTo? bindings.reverse name = some (some value) → Settable name value

theorem get?_concat (env : Environment) (name other value : Text) :
    Environment.get? (env ++ [(other, value)]) name =
      (env.get? name).or (if other = name then some value else none) := by
  show valueOf? (env ++ [(other, value)]) name = _
  rw [valueOf?_append, valueOf?_cons]
  rfl

/-- What one pair in front of others does: it is skipped, refused, or set before the others. -/
theorem extend_cons_some (env : Environment) (name value : Text) (rest : Bound) :
    (env.get? name ≠ none ∧ env.extend ((name, some value) :: rest) = env.extend rest) ∨
      env.get? name = none ∧
        ((¬Settable name value ∧ ∃ e, env.extend ((name, some value) :: rest) = .error e) ∨
          Settable name value ∧
            env.extend ((name, some value) :: rest) = Environment.extend (env ++ [(name, value)]) rest) := by
  rw [extend]
  by_cases hset : (env.get? name).isSome = true
  · rw [if_pos hset]
    exact .inl ⟨by simpa [Option.isSome_iff_ne_none] using hset, rfl⟩
  rw [if_neg hset]
  refine .inr ⟨by simpa using hset, ?_⟩
  by_cases hnul : (name.contains (.char '\x00') || value.contains (.char '\x00')) = true
  · rw [if_pos hnul]
    refine .inl ⟨?_, _, rfl⟩
    rintro ⟨hname, hvalue, -⟩
    simp [hname, hvalue] at hnul
  rw [if_neg hnul]
  simp only [Bool.or_eq_true, List.contains_iff_mem, not_or] at hnul
  by_cases hequals : name.contains (.char '=') = true
  · rw [if_pos hequals]
    refine .inl ⟨?_, _, rfl⟩
    rintro ⟨-, -, hname⟩
    simp [hname] at hequals
  · rw [if_neg hequals]
    exact .inr ⟨⟨hnul.1, hnul.2, by simpa using hequals⟩, rfl⟩

/-- After variables with distinct names were set, those of the environment are as they were, and every other has the
value that it was to be set to. -/
theorem get?_extend {env after : Environment} {pairs : Bound} (hnodup : (pairs.map (·.1)).Nodup)
    (h : env.extend pairs = .ok after) (name : Text) :
    after.get? name = (env.get? name).or (valueOf? pairs name).join := by
  induction pairs generalizing env with
  | nil =>
    cases h
    simp [valueOf?]
  | cons pair rest ih =>
    obtain ⟨first, value⟩ := pair
    rw [List.map_cons, List.nodup_cons] at hnodup
    rw [valueOf?_cons]
    cases value with
    | none =>
      rw [ih hnodup.2 h]
      split_ifs with hfirst
      · rw [valueOf?_eq_none_iff.mpr (hfirst ▸ hnodup.1)]
        rfl
      · rfl
    | some value =>
      rcases extend_cons_some env first value rest with ⟨hset, heq⟩ | ⟨hunset, ⟨-, e, heq⟩ | ⟨-, heq⟩⟩
      · rw [ih hnodup.2 (heq ▸ h)]
        split_ifs with hfirst
        · subst hfirst
          obtain ⟨old, hold⟩ := Option.ne_none_iff_exists'.mp hset
          rw [hold]
          rfl
        · rfl
      · cases heq.symm.trans h
      · rw [ih hnodup.2 (heq ▸ h), get?_concat]
        split_ifs with hfirst
        · subst hfirst
          rw [hunset]
          rfl
        · rw [Option.or_none]

/-- Variables with distinct names are set exactly when each that the environment does not have can be set. -/
theorem exists_extend_iff {env : Environment} {pairs : Bound} (hnodup : (pairs.map (·.1)).Nodup) :
    (∃ after, env.extend pairs = .ok after) ↔
      ∀ name value, env.get? name = none → valueOf? pairs name = some (some value) → Settable name value := by
  induction pairs generalizing env with
  | nil => simp [extend, valueOf?]
  | cons pair rest ih =>
    obtain ⟨first, value⟩ := pair
    rw [List.map_cons, List.nodup_cons] at hnodup
    simp only [valueOf?_cons_eq_some_iff hnodup.1]
    cases value with
    | none => simpa [extend] using ih hnodup.2
    | some value =>
      rcases extend_cons_some env first value rest with ⟨hset, heq⟩ | ⟨hunset, ⟨hnot, e, heq⟩ | ⟨hsettable, heq⟩⟩
      · rw [heq, ih hnodup.2]
        constructor
        · rintro hall name v hnone (⟨rfl, -⟩ | hrest)
          · exact absurd hnone hset
          · exact hall name v hnone hrest
        · intro hall name v hnone hrest
          exact hall name v hnone (.inr hrest)
      · rw [heq]
        constructor
        · rintro ⟨after, hafter⟩
          cases hafter
        · intro hall
          exact absurd (hall first value hunset (.inl ⟨rfl, rfl⟩)) hnot
      · rw [heq, ih hnodup.2]
        constructor
        · rintro hall name v hnone (⟨rfl, hv⟩ | hrest)
          · exact Option.some.inj hv ▸ hsettable
          · refine hall name v ?_ hrest
            rw [get?_concat, hnone, if_neg]
            · rfl
            · rintro rfl
              rw [valueOf?_eq_none_iff.mpr hnodup.1] at hrest
              cases hrest
        · intro hall name v hnone hrest
          rw [get?_concat, Option.or_eq_none_iff] at hnone
          exact hall name v hnone.1 (.inr hrest)

variable {env after : Environment} {bindings : List EnvFile.Binding}

/-- Bindings can be loaded exactly when every variable that they set can be set. -/
theorem exists_extend_resolve_iff :
    (∃ after, env.extend (env.resolve bindings) = .ok after) ↔ env.CanSet bindings := by
  rw [exists_extend_iff (nodup_resolve env bindings), valueOf?_resolve]
  rfl

/-- A value without references stands for itself. -/
theorem expand_of_no_dollar {value? : List Char → Option (Option Text)} {cs : List Char} (h : '$' ∉ cs)
    (fuel : Nat) : EnvFile.expand value? fuel cs = Text.ofChars cs := by
  induction fuel generalizing cs with
  | zero => rfl
  | succ fuel ih =>
    cases cs with
    | nil => rfl
    | cons c rest =>
      rw [List.mem_cons, not_or] at h
      rw [EnvFile.expand, if_neg (Ne.symm h.1), ih h.2, Text.ofChars_cons]

theorem expanded_of_no_dollar (env : Environment) (known : Text → Option (Option Text)) {value : List Char}
    (h : '$' ∉ value) : env.expanded known value = Text.ofChars value :=
  expand_of_no_dollar h _

/-- Bindings of other names are passed over. -/
theorem boundTo?_append {others : List EnvFile.Binding} {name : Text}
    (h : ∀ b ∈ others, Text.ofChars b.name ≠ name) (above : List EnvFile.Binding) :
    env.boundTo? (others ++ above) name = env.boundTo? above name := by
  induction others with
  | nil => rfl
  | cons b others ih =>
    rw [List.forall_mem_cons] at h
    rw [List.cons_append, boundTo?, if_neg h.1, ih h.2]

/-- The value of a variable in the end: that of the environment; or, if it is not set there, that of its last binding,
which is none for a name alone; or none, if it has no binding. -/
inductive Effective (env : Environment) (bindings : List EnvFile.Binding) (name : List Char) : Option Text → Prop
  | inEnvironment {value : Text} : env.get? (Text.ofChars name) = some value →
      Effective env bindings name (some value)
  | bound {above below : List EnvFile.Binding} {value : Option (List Char)} : env.get? (Text.ofChars name) = none →
      bindings = above ++ ⟨name, value⟩ :: below → (∀ later ∈ below, later.name ≠ name) →
      Effective env bindings name (value.map (env.expanded (env.boundTo? above.reverse)))
  | unbound : env.get? (Text.ofChars name) = none → (∀ b ∈ bindings, b.name ≠ name) →
      Effective env bindings name none

/-- A list of bindings has a last one of a name, or none of it. -/
theorem last_cases (bindings : List EnvFile.Binding) (name : List Char) :
    (∀ b ∈ bindings, b.name ≠ name) ∨
      ∃ above value below, bindings = above ++ ⟨name, value⟩ :: below ∧ ∀ later ∈ below, later.name ≠ name := by
  induction bindings with
  | nil => exact .inl nofun
  | cons b rest ih =>
    obtain ⟨first, value⟩ := b
    rcases ih with hnone | ⟨above, last, below, rfl, hbelow⟩
    · by_cases hfirst : first = name
      · subst hfirst
        exact .inr ⟨[], value, rest, rfl, hnone⟩
      · exact .inl (List.forall_mem_cons.mpr ⟨hfirst, hnone⟩)
    · exact .inr ⟨⟨first, value⟩ :: above, last, below, rfl, hbelow⟩

/-- After bindings were loaded, every variable has the value that it should have in the end. -/
theorem effective_get? (h : env.extend (env.resolve bindings) = .ok after) (name : List Char) :
    Effective env bindings name (after.get? (Text.ofChars name)) := by
  have hnames : ∀ {others : List EnvFile.Binding}, (∀ b ∈ others, b.name ≠ name) →
      ∀ b ∈ others.reverse, Text.ofChars b.name ≠ Text.ofChars name := by
    intro others hothers b hb heq
    exact hothers b (List.mem_reverse.mp hb) (Text.eq_of_ofChars heq)
  rw [get?_extend (nodup_resolve env bindings) h, valueOf?_resolve]
  cases hset : env.get? (Text.ofChars name) with
  | some value => exact .inEnvironment hset
  | none =>
    rw [Option.none_or]
    rcases last_cases bindings name with hnone | ⟨above, value, below, rfl, hbelow⟩
    · have hunbound : env.boundTo? (bindings.reverse ++ []) (Text.ofChars name) =
          env.boundTo? [] (Text.ofChars name) :=
        boundTo?_append (hnames hnone) []
      rw [List.append_nil] at hunbound
      rw [hunbound]
      exact .unbound hset hnone
    · rw [List.reverse_append, List.reverse_cons, List.append_assoc, boundTo?_append (hnames hbelow),
        List.singleton_append, boundTo?, if_pos rfl, Option.join_some]
      exact .bound hset rfl hbelow

/-- The bindings of a file that is to be loaded, if there is one. -/
def inForce (env : Environment) (file : Option (List Char)) : List EnvFile.Binding :=
  match file with
  | none => []
  | some text => if env.isOff then [] else EnvFile.bindings text

theorem load_eq (env : Environment) (file : Option (List Char)) :
    env.load file = env.extend (env.resolve (env.inForce file)) := by
  cases file with
  | none => rfl
  | some text =>
    rw [load, inForce]
    split_ifs <;> rfl

end Environment

/-! ## Targets -/

namespace Settings

/-- The targets of a manifest of texts are made in order, if every function has a usable name, and not at all
otherwise. -/
theorem targets_manifestOf_iff (s : Settings) (entries : List (Text × Text)) (targets : List Target) :
    s.targets (manifestOf entries) = .ok targets ↔
      (∀ entry ∈ entries, ¬Unusable entry.2) ∧ targets = s.targetsOf entries := by
  constructor
  · intro h
    have hnames : ∀ entry ∈ entries, ¬Unusable entry.2 := by
      intro entry hentry hname
      obtain ⟨e, he⟩ := targets_manifestOf_error s ⟨entry, hentry, hname⟩
      cases h.symm.trans he
    rw [targets_manifestOf hnames] at h
    exact ⟨hnames, (Except.ok.inj h).symm⟩
  · rintro ⟨hnames, rfl⟩
    exact targets_manifestOf hnames

/-- For every environment, also with values that are no UTF-8, all bindings of a file of variables, and every manifest
whose contracts have no slash in their names: the bindings are loaded exactly when the variables that they set can be
set. Then the directory of artifacts is what the environment, or else the last binding of its variable, or else nothing
but `out` names; the targets are those of the manifest, in order, if the name of every function is usable, neither empty
nor with a lone surrogate; the artifact of each is in that directory under the two names of its contract; and two of
them have one artifact exactly when they are of one contract. -/
theorem targets_of_bindings (env : Environment) (bindings : List EnvFile.Binding) {entries : List (Text × Text)}
    (hslash : ∀ entry ∈ entries, Path.slash ∉ entry.1) :
    ((∃ after, env.extend (env.resolve bindings) = .ok after) ↔ env.CanSet bindings) ∧
    ∀ after, env.extend (env.resolve bindings) = .ok after →
      let s := ofEnvironment after
      (∀ file, env.inForce file = bindings → load env file = .ok s) ∧
      (∃ value, Environment.Effective env bindings "FOUNDRY_OUT".toList value ∧
        Path.Named (value.getD (Text.ofString "out")) s.out.names ∧
        Path.Anchored (value.getD (Text.ofString "out")) s.out.anchor) ∧
      (∀ known value, '$' ∉ value → env.expanded known value = Text.ofChars value) ∧
      (∀ targets, s.targets (manifestOf entries) = .ok targets ↔
        (∀ entry ∈ entries, ¬Unusable entry.2) ∧
          targets = entries.map fun entry => ⟨s.artifact (.str entry.1), entry.2⟩) ∧
      (∀ entry ∈ entries, s.artifact (.str entry.1) =
        ⟨s.out.anchor, s.out.names ++ [entry.1 ++ Text.ofString ".sol", entry.1 ++ Text.ofString ".json"]⟩) ∧
      ∀ entry ∈ entries, ∀ other ∈ entries,
        s.artifact (.str entry.1) = s.artifact (.str other.1) ↔ entry.1 = other.1 := by
  refine ⟨Environment.exists_extend_resolve_iff, fun after hafter => ?_⟩
  refine ⟨?_, ⟨after.get? outVariable, Environment.effective_get? hafter "FOUNDRY_OUT".toList, ?_, ?_⟩, ?_, ?_, ?_, ?_⟩
  · rintro file rfl
    rw [load, Environment.load_eq, hafter]
  · exact Path.named_parse _
  · exact Path.anchored_parse _
  · exact fun known value => env.expanded_of_no_dollar known
  · exact fun targets => targets_manifestOf_iff _ entries targets
  · exact fun entry hentry => artifact_eq _ (hslash entry hentry)
  · intro entry hentry other hother
    exact artifact_inj _ (hslash entry hentry) (hslash other hother)

/-- A file of variables that sets the directory of artifacts twice; the second has a root of its own. -/
def setTwice : List Char := "FOUNDRY_OUT=old\nexport FOUNDRY_OUT = '//a/.//../b/' # artifacts\n".toList

/-- A manifest with a contract whose name is that of the directory above, and one without a name. -/
def oddContracts : List (Text × Text) :=
  [(Text.ofString "..", Text.ofString "f"), ([], Text.ofString "g")]

/-- An environment with a byte that is no UTF-8. -/
def strayByte : Environment := [(Text.ofString "OTHER", [.lone ⟨0x4ff, by decide⟩])]

theorem targets_of_bindings_setTwice :
    ∃ s, load strayByte (some setTwice) = .ok s ∧ s.targets (manifestOf oddContracts) =
      .ok [⟨⟨.doubleRoot, ["a", "..", "b", "...sol", "...json"].map Text.ofString⟩, Text.ofString "f"⟩,
        ⟨⟨.doubleRoot, ["a", "..", "b", ".sol", ".json"].map Text.ofString⟩, Text.ofString "g"⟩] := by
  have hslash : ∀ entry ∈ oddContracts, Path.slash ∉ entry.1 := by decide
  have hnames : ∀ entry ∈ oddContracts, ¬Unusable entry.2 := by
    have hchars : ∀ entry ∈ oddContracts, entry.2 ≠ [] ∧ entry.2.chars? ≠ none := by decide
    rintro entry hentry (hempty | hlone)
    · exact (hchars entry hentry).1 hempty
    · exact (hchars entry hentry).2 (Text.chars?_eq_none_iff.mpr hlone)
  have hafter : (strayByte.extend (strayByte.resolve (EnvFile.bindings setTwice))).toOption =
      some (strayByte ++ [(outVariable, Text.ofString "//a/.//../b/")]) := by decide +kernel
  obtain ⟨-, hloaded⟩ := targets_of_bindings strayByte (EnvFile.bindings setTwice) hslash
  obtain ⟨hload, -, -, htargets, -⟩ := hloaded _ (eq_ok_of_toOption hafter)
  refine ⟨_, hload (some setTwice) rfl, (htargets _).mpr ⟨hnames, ?_⟩⟩
  decide +kernel

end Settings

end Redeclare
