import Mathlib.Data.List.Induction
import Redeclare.FileTree.Walk

/-!
# Trees

How changing one location of a tree shows when it is looked up, and what makes a list of entries a tree of files: every
entry stands in a directory, under names that a directory can hold. What is at a location that has an entry is then
found from the root, name by name; a new file changes where a way leads only if nothing was there; and overwriting a
file changes nothing about where paths lead.
-/

namespace Redeclare.FileTree

variable {entries : List (Location × Entry)} {tree : FileTree} {loc other : Location} {e e' : Entry}

/-! ## Entries -/

theorem lookup_assign_self : lookup loc (assign loc e entries) = some e := by
  induction entries with
  | nil => simp [assign, lookup]
  | cons head rest ih =>
    obtain ⟨l, old⟩ := head
    by_cases h : l = loc
    · simp [assign, lookup, h]
    · simp [assign, lookup, h, ih]

theorem lookup_assign_of_ne (h : other ≠ loc) : lookup other (assign loc e entries) = lookup other entries := by
  induction entries with
  | nil => simp [assign, lookup, h.symm]
  | cons head rest ih =>
    obtain ⟨l, old⟩ := head
    by_cases hl : l = loc
    · subst hl
      simp [assign, lookup, h.symm]
    · simp [assign, lookup, hl, ih]

theorem lookup_eq_none : lookup loc entries = none ↔ ∀ p ∈ entries, p.1 ≠ loc := by
  induction entries with
  | nil => simp [lookup]
  | cons head rest ih =>
    obtain ⟨l, old⟩ := head
    by_cases h : l = loc
    · simp [lookup, h]
    · simp [lookup, h, ih]

/-- Nothing is found under a location that is none of those of the entries. -/
theorem lookup_eq_none_iff_not_mem : lookup loc entries = none ↔ loc ∉ entries.map (·.1) := by
  rw [lookup_eq_none, List.mem_map]
  exact ⟨fun h ⟨p, hp, heq⟩ => h p hp heq, fun h p hp heq => h ⟨p, hp, heq⟩⟩

theorem mem_of_lookup (h : lookup loc entries = some e) : (loc, e) ∈ entries := by
  induction entries with
  | nil => cases h
  | cons head rest ih =>
    obtain ⟨l, old⟩ := head
    rw [lookup] at h
    split at h
    · rename_i hl
      cases h
      rw [hl]
      exact List.mem_cons_self
    · exact List.mem_cons_of_mem _ (ih h)

theorem assign_of_lookup_none (h : lookup loc entries = none) : assign loc e entries = entries ++ [(loc, e)] := by
  induction entries with
  | nil => rfl
  | cons head rest ih =>
    obtain ⟨l, old⟩ := head
    rw [lookup_eq_none, List.forall_mem_cons] at h
    rw [assign, if_neg h.1, ih (lookup_eq_none.mpr h.2), List.cons_append]

theorem assign_assign : assign loc e' (assign loc e entries) = assign loc e' entries := by
  induction entries with
  | nil => simp [assign]
  | cons head rest ih =>
    obtain ⟨l, old⟩ := head
    by_cases h : l = loc
    · simp [assign, h]
    · simp [assign, h, ih]

/-- Putting what stands there changes nothing. -/
theorem assign_of_lookup (h : lookup loc entries = some e) : assign loc e entries = entries := by
  induction entries with
  | nil => cases h
  | cons head rest ih =>
    obtain ⟨l, old⟩ := head
    rw [lookup] at h
    rw [assign]
    split at h
    · rename_i hl
      cases h
      rw [if_pos hl]
    · rename_i hl
      rw [if_neg hl, ih h]

/-- Putting something where something stands can be exchanged with putting something elsewhere. -/
theorem assign_comm {old : Entry} (hne : other ≠ loc) (h : lookup loc entries = some old) :
    assign loc e (assign other e' entries) = assign other e' (assign loc e entries) := by
  induction entries with
  | nil => cases h
  | cons head rest ih =>
    obtain ⟨l, first⟩ := head
    by_cases hl : l = loc
    · subst hl
      simp [assign, hne.symm]
    · rw [lookup, if_neg hl] at h
      by_cases hother : l = other
      · subst hother
        simp [assign, hne]
      · simp [assign, hl, hother, ih h]

/-- Putting something else where something stands keeps the locations. -/
theorem locations_assign (h : lookup loc entries = some e) (e' : Entry) :
    (assign loc e' entries).map (·.1) = entries.map (·.1) := by
  induction entries with
  | nil => cases h
  | cons head rest ih =>
    obtain ⟨l, old⟩ := head
    rw [assign]
    split
    · rfl
    · rename_i hne
      rw [lookup, if_neg hne] at h
      rw [List.map_cons, List.map_cons, ih h]

/-! ## Changing a tree -/

theorem entry?_nil (tree : FileTree) : tree.entry? [] = some .dir := if_pos rfl

/-- A file does not stand at the root. -/
theorem ne_nil_of_file {m : Nat} {c : Utf8.Bytes} (h : tree.entry? loc = some (.file m c)) : loc ≠ [] := by
  rintro rfl
  rw [entry?_nil] at h
  cases h

theorem entry?_of_ne_nil (h : loc ≠ []) : tree.entry? loc = lookup loc tree.entries := if_neg h

theorem entry?_set_self (h : loc ≠ []) : entry? (tree.set loc e) loc = some e := by
  rw [entry?_of_ne_nil h, set, lookup_assign_self]

theorem entry?_set_of_ne (h : other ≠ loc) : entry? (tree.set loc e) other = tree.entry? other := by
  unfold entry? set
  rw [lookup_assign_of_ne h]

theorem set_set (tree : FileTree) (loc : Location) (e e' : Entry) : (tree.set loc e).set loc e' = tree.set loc e' := by
  unfold set
  rw [assign_assign]

/-- Putting what stands there leaves the tree as it is. -/
theorem set_of_entry? (hne : loc ≠ []) (h : tree.entry? loc = some e) : tree.set loc e = tree := by
  rw [entry?_of_ne_nil hne] at h
  unfold set
  rw [assign_of_lookup h]

/-- Changes at two locations can be exchanged if something stands at one of them. -/
theorem set_comm {old : Entry} (hne : other ≠ loc) (hroot : loc ≠ []) (h : tree.entry? loc = some old) :
    (tree.set other e').set loc e = (tree.set loc e).set other e' := by
  rw [entry?_of_ne_nil hroot] at h
  unfold set
  rw [assign_comm hne h]

/-- Whether something is at a location shows in the locations of the entries. -/
theorem entry?_isNone_congr {other : FileTree} (h : tree.entries.map (·.1) = other.entries.map (·.1))
    (loc : Location) : (tree.entry? loc).isNone = (other.entry? loc).isNone := by
  have hlookup : lookup loc tree.entries = none ↔ lookup loc other.entries = none := by
    rw [lookup_eq_none_iff_not_mem, lookup_eq_none_iff_not_mem, h]
  unfold entry?
  split
  · rfl
  · rw [Bool.eq_iff_iff, Option.isNone_iff_eq_none, Option.isNone_iff_eq_none, hlookup]

/-- A location with nothing is none of those of the entries. -/
theorem lookup_of_entry?_none (h : tree.entry? loc = none) : loc ≠ [] ∧ lookup loc tree.entries = none := by
  unfold entry? at h
  split at h
  · cases h
  · rename_i hne
    exact ⟨hne, h⟩

/-- Where nothing is, no directory is. -/
theorem ne_dir_of_none (h : tree.entry? loc = none) : tree.entry? loc ≠ some .dir := by
  rw [h]
  exact nofun

/-- Removing what is not there changes nothing. -/
theorem remove_of_entry?_none (h : tree.entry? loc = none) : tree.remove loc = tree := by
  have hnone := lookup_eq_none.mp (lookup_of_entry?_none h).2
  unfold remove
  rw [List.filter_eq_self.mpr (fun p hp => decide_eq_true (hnone p hp))]

/-- What was put where nothing was is gone when it is removed, and the tree is the same as before. -/
theorem remove_set (h : tree.entry? loc = none) : (tree.set loc e).remove loc = tree := by
  have hassign : assign loc e tree.entries = tree.entries ++ [(loc, e)] :=
    assign_of_lookup_none (lookup_of_entry?_none h).2
  have hremove : tree.entries.filter (·.1 ≠ loc) = tree.entries :=
    congrArg FileTree.entries (remove_of_entry?_none h)
  unfold remove set
  rw [hassign, List.filter_append, hremove]
  simp

/-! ## Trees of files -/

/-- A name that a directory can hold. -/
def HeldName (name : Text) : Prop :=
  name ≠ [] ∧ name ≠ Path.dot ∧ name ≠ Path.dotDot ∧ Utf8.byteLength name ≤ maxName

instance (name : Text) : Decidable (HeldName name) :=
  inferInstanceAs (Decidable (name ≠ [] ∧ name ≠ Path.dot ∧ name ≠ Path.dotDot ∧ Utf8.byteLength name ≤ maxName))

/-- A tree of files: every entry stands in a directory and has a name that a directory can hold, and relative paths
start in a directory. -/
structure WellFormed (tree : FileTree) : Prop where
  parent : ∀ loc name e, tree.entry? (loc ++ [name]) = some e → tree.entry? loc = some .dir ∧ HeldName name
  start : tree.entry? tree.here = some .dir

/-- Whether a tree is one of files shows in its entries. -/
theorem wellFormed_iff : tree.WellFormed ↔
    (∀ p ∈ tree.entries, p.1 = [] ∨ tree.entry? p.1.dropLast = some .dir ∧ HeldName (p.1.getLastD [])) ∧
      tree.entry? tree.here = some .dir := by
  constructor
  · intro h
    refine ⟨?_, h.start⟩
    intro p hp
    rcases List.eq_nil_or_concat p.1 with hnil | ⟨dir, name, hsplit⟩
    · exact .inl hnil
    · right
      obtain ⟨e, hentry⟩ : ∃ e, tree.entry? (dir ++ [name]) = some e := by
        rw [entry?_of_ne_nil (by simp), ← Option.isSome_iff_exists, ← Option.ne_none_iff_isSome]
        intro hnone
        exact lookup_eq_none.mp hnone p hp (by rw [hsplit, List.concat_eq_append])
      obtain ⟨hdir, hname⟩ := h.parent dir name e hentry
      rw [hsplit, List.concat_eq_append, List.dropLast_concat, List.getLastD_concat]
      exact ⟨hdir, hname⟩
  · rintro ⟨hentries, hstart⟩
    refine ⟨?_, hstart⟩
    intro dir name e hentry
    rw [entry?_of_ne_nil (by simp)] at hentry
    have hchecked := hentries _ (mem_of_lookup hentry)
    rw [List.dropLast_concat, List.getLastD_concat] at hchecked
    exact hchecked.resolve_left (by simp)

instance (tree : FileTree) : Decidable tree.WellFormed := decidable_of_iff _ wellFormed_iff.symm

/-- A tree with one file, which has a name and characters. -/
def oneFile (name content : String) : FileTree :=
  ⟨[([Text.ofString name], .file 0o644 (Utf8.encodeChars content.toList))], []⟩

/-- Where something stands, everything on the way from the root is a directory. -/
theorem WellFormed.isDir (h : tree.WellFormed) {names : List Text} (hne : names ≠ [])
    (hentry : tree.entry? (loc ++ names) = some e) : tree.entry? loc = some .dir := by
  induction names using List.reverseRecOn generalizing e with
  | nil => exact absurd rfl hne
  | append_singleton names name ih =>
    rw [← List.append_assoc] at hentry
    have hdir := (h.parent _ _ _ hentry).1
    by_cases hnames : names = []
    · rw [hnames, List.append_nil] at hdir
      exact hdir
    · exact ih hnames hdir

/-- What stands in a directory other than the root stands in a directory. -/
theorem WellFormed.dropLast (h : tree.WellFormed) (hentry : tree.entry? loc = some e) :
    tree.entry? loc.dropLast = some .dir := by
  rcases List.eq_nil_or_concat loc with rfl | ⟨dir, name, rfl⟩
  · exact entry?_nil tree
  · rw [List.concat_eq_append] at hentry ⊢
    rw [List.dropLast_concat]
    exact (h.parent dir name e hentry).1

/-! ## Ways -/

/-- One name leads from a location to another, and not through a link. -/
inductive Goes (tree : FileTree) (loc : Location) (name : Text) : Location → Prop
  | stay : tree.entry? loc = some .dir → name = [] ∨ name = Path.dot → Goes tree loc name loc
  | up : tree.entry? loc = some .dir → ¬(name = [] ∨ name = Path.dot) → name = Path.dotDot →
    Goes tree loc name loc.dropLast
  | down {e : Entry} : tree.entry? loc = some .dir → HeldName name → tree.entry? (loc ++ [name]) = some e →
    (∀ target, e ≠ .link target) → Goes tree loc name (loc ++ [name])

section
variable {next : Location} {name : Text} {rest : List Text}

/-- Names are looked up in directories only. -/
theorem Goes.isDir (h : tree.Goes loc name next) : tree.entry? loc = some .dir := by
  cases h with
  | stay hdir => exact hdir
  | up hdir => exact hdir
  | down hdir => exact hdir

/-- A way goes on from where its first name leads. -/
theorem Goes.advance (h : tree.Goes loc name next) (rest : List Text) :
    tree.advance loc (name :: rest) = tree.advance next rest := by
  rw [FileTree.advance]
  cases h with
  | stay hdir hstay => simp only [hdir, if_pos hstay]
  | up hdir hstay hup => simp only [hdir, if_neg hstay, if_pos hup]
  | @down e hdir hheld hentry hnolink =>
    obtain ⟨hempty, hdot, hdotDot, hlength⟩ := hheld
    rw [hdir]
    simp only [hempty, hdot, or_self, if_false, hdotDot, Nat.not_lt.mpr hlength, hentry]

/-- What becomes of the first name of a way: it leads on, or to a link that stands in a directory, or nowhere. -/
theorem advance_cons_cases (tree : FileTree) (loc : Location) (name : Text) (rest : List Text) :
    (∃ next, tree.Goes loc name next) ∨
      (∃ target, tree.entry? loc = some .dir ∧ HeldName name ∧ tree.entry? (loc ++ [name]) = some (.link target) ∧
        tree.advance loc (name :: rest) = .link (linkStart loc target) (Path.pieces target ++ rest)) ∨
      ∃ e, tree.advance loc (name :: rest) = .failed e := by
  rw [advance]
  split
  · exact .inr (.inr ⟨_, rfl⟩)
  · rename_i hdir
    split
    · rename_i hstay
      exact .inl ⟨_, .stay hdir hstay⟩
    rename_i hstay
    split
    · rename_i hup
      exact .inl ⟨_, .up hdir hstay hup⟩
    rename_i hup
    split
    · exact .inr (.inr ⟨_, rfl⟩)
    rename_i hlong
    have hheld : HeldName name := ⟨(not_or.mp hstay).1, (not_or.mp hstay).2, hup, Nat.not_lt.mp hlong⟩
    split
    · exact .inr (.inr ⟨_, rfl⟩)
    · rename_i target hlink
      exact .inr (.inl ⟨target, hdir, hheld, hlink, rfl⟩)
    · rename_i e hnolink hentry
      exact .inl ⟨_, .down hdir hheld hentry hnolink⟩
  · exact .inr (.inr ⟨_, rfl⟩)

/-- The first name of a way that arrives leads on. -/
theorem exists_goes_of_advance (h : tree.advance loc (name :: rest) = .arrived other) :
    ∃ next, tree.Goes loc name next ∧ tree.advance next rest = .arrived other := by
  rcases tree.advance_cons_cases loc name rest with ⟨next, hgoes⟩ | ⟨target, -, -, -, hlink⟩ | ⟨e, hfailed⟩
  · rw [hgoes.advance] at h
    exact ⟨next, hgoes, h⟩
  · rw [hlink] at h
    cases h
  · rw [hfailed] at h
    cases h

end

/-- In a tree of files, a path starts in a directory. -/
theorem WellFormed.isDir_startOf (h : tree.WellFormed) (p : Path) : tree.entry? (tree.startOf p) = some .dir := by
  unfold startOf
  split
  · exact h.start
  · exact entry?_nil tree

/-- The target of a link that stands in a directory starts in a directory. -/
theorem isDir_linkStart (hdir : tree.entry? loc = some .dir) (target : Text) :
    tree.entry? (linkStart loc target) = some .dir := by
  unfold linkStart
  split
  · exact entry?_nil tree
  · exact hdir

/-- The way from a location to what stands behind it goes through no link, unless one stands at its end. -/
theorem WellFormed.advance_eq (h : tree.WellFormed) {names : List Text} (hlink : ∀ target, e ≠ .link target)
    (hentry : tree.entry? (loc ++ names) = some e) : tree.advance loc names = .arrived (loc ++ names) := by
  induction names generalizing loc with
  | nil => rw [List.append_nil, advance]
  | cons name rest ih =>
    have hsplit : loc ++ name :: rest = loc ++ [name] ++ rest := by simp
    rw [hsplit] at hentry ⊢
    have hnext : ∃ e, tree.entry? (loc ++ [name]) = some e ∧ ∀ target, e ≠ .link target := by
      by_cases hrest : rest = []
      · rw [hrest, List.append_nil] at hentry
        exact ⟨e, hentry, hlink⟩
      · exact ⟨.dir, h.isDir hrest hentry, fun target heq => nomatch heq⟩
    obtain ⟨next, hnext, hnolink⟩ := hnext
    obtain ⟨hdir, hheld⟩ := h.parent loc name next hnext
    rw [(Goes.down hdir hheld hnext hnolink).advance]
    exact ih hentry

/-- A way goes on from where its first part arrives. -/
theorem advance_append {front : List Text} (h : tree.advance loc front = .arrived other) (back : List Text) :
    tree.advance loc (front ++ back) = tree.advance other back := by
  induction front generalizing loc with
  | nil =>
    cases h
    rfl
  | cons name rest ih =>
    obtain ⟨next, hgoes, hrest⟩ := exists_goes_of_advance h
    rw [List.cons_append, hgoes.advance, ih hrest]

/-- A way without links is within every limit. -/
theorem walk_of_advance {names : List Text} (h : tree.advance loc names = .arrived other) (links : Nat) :
    tree.walk links loc names = .ok other := by
  cases links with
  | zero => rw [walk, h]
  | succ links => rw [walk, h]

/-- What stands at a location is found there, unless it is a link. -/
theorem WellFormed.arrived (h : tree.WellFormed) (hentry : tree.entry? loc = some e)
    (hlink : ∀ target, e ≠ .link target) : tree.advance [] loc = .arrived loc :=
  h.advance_eq hlink hentry

/-! ## More entries -/

/-- Everything in the first tree is in the second. -/
def Extends (small large : FileTree) : Prop := ∀ loc e, small.entry? loc = some e → large.entry? loc = some e

/-- Nothing new is also more. -/
theorem Extends.refl (tree : FileTree) : tree.Extends tree := fun _ _ h => h

/-- A new entry leaves all others. -/
theorem extends_set (h : tree.entry? loc = none) : tree.Extends (tree.set loc e) := by
  intro other old hold
  have hne : other ≠ loc := by
    rintro rfl
    rw [h] at hold
    cases hold
  rw [entry?_set_of_ne hne, hold]

/-- Where a name leads it still leads when there are more entries. -/
theorem Extends.goes {small large : FileTree} (h : small.Extends large) {name : Text}
    (hgoes : small.Goes loc name other) : large.Goes loc name other := by
  cases hgoes with
  | stay hdir hstay => exact .stay (h _ _ hdir) hstay
  | up hdir hstay hup => exact .up (h _ _ hdir) hstay hup
  | down hdir hheld hentry hnolink => exact .down (h _ _ hdir) hheld (h _ _ hentry) hnolink

/-- A way that ends somewhere still ends there when there are more entries. -/
theorem Extends.advance {small large : FileTree} (h : small.Extends large) {names : List Text}
    (harrived : small.advance loc names = .arrived other) : large.advance loc names = .arrived other := by
  induction names generalizing loc with
  | nil => exact harrived
  | cons name rest ih =>
    obtain ⟨next, hgoes, hrest⟩ := exists_goes_of_advance harrived
    rw [(h.goes hgoes).advance]
    exact ih hrest

/-! ## Files where no directory is -/

/-- A file that is put where no directory is changes where a way leads only if the way comes to it: then the way ends at
the file, or is refused because it goes on behind the file. If nothing was there before, the way ended there. -/
theorem advance_set (mode : Nat) (content : Utf8.Bytes) (hdir : tree.entry? loc ≠ some .dir) (start : Location)
    (names : List Text) :
    (tree.set loc (.file mode content)).advance start names = tree.advance start names ∨
      (tree.entry? loc = none → tree.advance start names = .failed .notFound) ∧
        ((tree.set loc (.file mode content)).advance start names = .arrived loc ∨
          (tree.set loc (.file mode content)).advance start names = .failed .notADirectory) := by
  have hne : loc ≠ [] := by
    rintro rfl
    exact hdir (entry?_nil tree)
  have hself : entry? (tree.set loc (.file mode content)) loc = some (.file mode content) := entry?_set_self hne
  induction names generalizing start with
  | nil => exact .inl rfl
  | cons name rest ih =>
    rw [advance, advance]
    by_cases hstart : start = loc
    · subst hstart
      rw [hself]
      refine .inr ⟨?_, .inr rfl⟩
      intro hfresh
      rw [hfresh]
    rw [entry?_set_of_ne hstart]
    by_cases hnext : start ++ [name] = loc
    · subst hnext
      rw [hself]
      split
      · exact .inl rfl
      · split
        · exact ih start
        split
        · exact ih start.dropLast
        split
        · exact .inl rfl
        · refine .inr ⟨?_, ?_⟩
          · intro hfresh
            rw [hfresh]
          cases rest with
          | nil => exact .inl rfl
          | cons next rest =>
            right
            simp only [advance, hself]
      · exact .inl rfl
    · rw [entry?_set_of_ne hnext]
      split
      · exact .inl rfl
      · split
        · exact ih start
        split
        · exact ih start.dropLast
        split
        · exact .inl rfl
        split
        · exact .inl rfl
        · exact .inl rfl
        · exact ih (start ++ [name])
      · exact .inl rfl

/-- The same through links. -/
theorem walk_set (mode : Nat) (content : Utf8.Bytes) (hdir : tree.entry? loc ≠ some .dir) (links : Nat)
    (start : Location) (names : List Text) :
    (tree.set loc (.file mode content)).walk links start names = tree.walk links start names ∨
      (tree.entry? loc = none → tree.walk links start names = .error .notFound) ∧
        ((tree.set loc (.file mode content)).walk links start names = .ok loc ∨
          (tree.set loc (.file mode content)).walk links start names = .error .notADirectory) := by
  induction links generalizing start names with
  | zero =>
    rw [walk, walk]
    rcases advance_set mode content hdir start names with heq | ⟨hold, hnew⟩
    · rw [heq]
      exact .inl rfl
    · refine .inr ⟨fun hfresh => by rw [hold hfresh], ?_⟩
      rcases hnew with hnew | hnew
      · exact .inl (by rw [hnew])
      · exact .inr (by rw [hnew])
  | succ links ih =>
    rw [walk, walk]
    rcases advance_set mode content hdir start names with heq | ⟨hold, hnew⟩
    · rw [heq]
      split
      · exact .inl rfl
      · exact ih _ _
      · exact .inl rfl
    · refine .inr ⟨fun hfresh => by rw [hold hfresh], ?_⟩
      rcases hnew with hnew | hnew
      · exact .inl (by rw [hnew])
      · exact .inr (by rw [hnew])

/-! ## Overwriting files -/

/-- The trees differ at most in the modes and contents of their files. -/
structure SameShape (a b : FileTree) : Prop where
  here : a.here = b.here
  entry : ∀ loc, a.entry? loc = b.entry? loc ∨
    ∃ m c m' c', a.entry? loc = some (.file m c) ∧ b.entry? loc = some (.file m' c')

section
variable {a b : FileTree}

theorem SameShape.refl (tree : FileTree) : SameShape tree tree := ⟨rfl, fun _ => .inl rfl⟩

theorem SameShape.trans {c : FileTree} (h : SameShape a b) (h' : SameShape b c) : SameShape a c := by
  refine ⟨h.here.trans h'.here, fun loc => ?_⟩
  rcases h.entry loc with heq | ⟨m, k, m', k', ha, hb⟩
  · rw [heq]
    exact h'.entry loc
  · rcases h'.entry loc with heq | ⟨-, -, n, d, -, hc⟩
    · exact .inr ⟨m, k, m', k', ha, heq ▸ hb⟩
    · exact .inr ⟨m, k, n, d, ha, hc⟩

theorem SameShape.symm (h : SameShape a b) : SameShape b a := by
  refine ⟨h.here.symm, fun loc => ?_⟩
  rcases h.entry loc with heq | ⟨m, c, m', c', ha, hb⟩
  · exact .inl heq.symm
  · exact .inr ⟨m', c', m, c, hb, ha⟩

/-- The directories are the same. -/
theorem SameShape.isDir (h : SameShape a b) (hdir : a.entry? loc = some .dir) : b.entry? loc = some .dir := by
  rcases h.entry loc with heq | ⟨m, c, m', c', ha, -⟩
  · rw [← heq, hdir]
  · rw [hdir] at ha
    cases ha

theorem SameShape.wellFormed (h : SameShape a b) (ha : a.WellFormed) : b.WellFormed := by
  constructor
  · intro loc name e hentry
    obtain ⟨e', hentry'⟩ : ∃ e', a.entry? (loc ++ [name]) = some e' := by
      rcases h.entry (loc ++ [name]) with heq | ⟨m, c, m', c', hfile, -⟩
      · exact ⟨e, heq ▸ hentry⟩
      · exact ⟨_, hfile⟩
    obtain ⟨hdir, hname⟩ := ha.parent loc name e' hentry'
    exact ⟨h.isDir hdir, hname⟩
  · exact h.here ▸ h.isDir ha.start

/-- Ways are the same. -/
theorem SameShape.advance (h : SameShape a b) (loc : Location) (names : List Text) :
    a.advance loc names = b.advance loc names := by
  induction names generalizing loc with
  | nil => rfl
  | cons name rest ih =>
    rw [FileTree.advance, FileTree.advance]
    rcases h.entry loc with heq | ⟨m, c, m', c', ha, hb⟩
    · rw [heq]
      rcases h.entry (loc ++ [name]) with hnext | ⟨m, c, m', c', ha, hb⟩
      · rw [hnext, ih loc, ih loc.dropLast, ih (loc ++ [name])]
      · rw [ha, hb, ih loc, ih loc.dropLast, ih (loc ++ [name])]
    · rw [ha, hb]

theorem SameShape.walk (h : SameShape a b) (links : Nat) (loc : Location) (names : List Text) :
    a.walk links loc names = b.walk links loc names := by
  induction links generalizing loc names with
  | zero => rw [FileTree.walk, FileTree.walk, h.advance]
  | succ links ih =>
    rw [FileTree.walk, FileTree.walk, h.advance]
    split
    · rfl
    · exact ih _ _
    · rfl

/-- Paths lead to the same places. -/
theorem SameShape.find (h : SameShape a b) (p : Path) : a.find p = b.find p := by
  have hstart : a.startOf p = b.startOf p := by
    unfold startOf
    rw [h.here]
  unfold FileTree.find
  rw [hstart, h.walk]

end

/-- Overwriting a file keeps the shape. -/
theorem sameShape_set {m : Nat} {c : Utf8.Bytes} (h : tree.entry? loc = some (.file m c)) (m' : Nat)
    (c' : Utf8.Bytes) :
    SameShape tree (tree.set loc (.file m' c')) := by
  have hne : loc ≠ [] := ne_nil_of_file h
  refine ⟨rfl, fun other => ?_⟩
  by_cases hother : other = loc
  · subst hother
    exact .inr ⟨m, c, m', c', h, entry?_set_self hne⟩
  · exact .inl (entry?_set_of_ne hother).symm

/-- The trees have entries at the same locations and differ at most in the modes and contents of their files. -/
structure Alike (a b : FileTree) : Prop where
  shape : SameShape a b
  locations : a.entries.map (·.1) = b.entries.map (·.1)

section
variable {a b c : FileTree}

theorem Alike.refl (tree : FileTree) : Alike tree tree := ⟨.refl tree, rfl⟩

theorem Alike.symm (h : Alike a b) : Alike b a := ⟨h.shape.symm, h.locations.symm⟩

theorem Alike.trans (h : Alike a b) (h' : Alike b c) : Alike a c :=
  ⟨h.shape.trans h'.shape, h.locations.trans h'.locations⟩

end

/-- Overwriting a file leaves a tree alike. -/
theorem alike_set {m : Nat} {c : Utf8.Bytes} (h : tree.entry? loc = some (.file m c)) (m' : Nat) (c' : Utf8.Bytes) :
    Alike tree (tree.set loc (.file m' c')) := by
  refine ⟨sameShape_set h m' c', ?_⟩
  have hne : loc ≠ [] := ne_nil_of_file h
  rw [entry?_of_ne_nil hne] at h
  exact (locations_assign h _).symm

end Redeclare.FileTree
