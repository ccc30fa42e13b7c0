import Mathlib.Data.List.Perm.Subperm
import Redeclare.FileTree.Replace
import Redeclare.Proofs.Trees

/-!
# Where paths lead

The system finds what a path leads to by replacing links with their targets until none is left, and gives up after some
number of links. The canonical location is computed in another way: each link is followed on its own, to the end, and a
link that is met inside its own target is given up. Both agree wherever the system arrives: a way that arrives comes
apart into ways, the target of a link takes fewer links than the way that goes through the link, so no link is met
inside its own target, and the links that are being followed at one time are different entries of the tree. When all
links of a path can be followed, none is left in its canonical location, whether or not something is there.
-/

namespace Redeclare.FileTree

/-- Names lead from a location to another through a number of links. -/
inductive Leads (tree : FileTree) : Location → List Text → Nat → Location → Prop
  | arrived (loc : Location) : Leads tree loc [] 0 loc
  | stay {loc dest : Location} {name : Text} {rest : List Text} {n : Nat} :
    tree.entry? loc = some .dir → name = [] ∨ name = Path.dot → Leads tree loc rest n dest →
      Leads tree loc (name :: rest) n dest
  | up {loc dest : Location} {name : Text} {rest : List Text} {n : Nat} :
    tree.entry? loc = some .dir → ¬(name = [] ∨ name = Path.dot) → name = Path.dotDot →
      Leads tree loc.dropLast rest n dest → Leads tree loc (name :: rest) n dest
  | down {loc dest : Location} {name : Text} {rest : List Text} {n : Nat} {e : Entry} :
    tree.entry? loc = some .dir → ¬(name = [] ∨ name = Path.dot) → name ≠ Path.dotDot →
      tree.entry? (loc ++ [name]) = some e → (∀ target, e ≠ .link target) → Leads tree (loc ++ [name]) rest n dest →
      Leads tree loc (name :: rest) n dest
  | through {loc dest : Location} {name : Text} {rest : List Text} {n : Nat} {target : Text} :
    tree.entry? loc = some .dir → ¬(name = [] ∨ name = Path.dot) → name ≠ Path.dotDot →
      tree.entry? (loc ++ [name]) = some (.link target) →
      Leads tree (linkStart loc target) (Path.pieces target ++ rest) n dest → Leads tree loc (name :: rest) (n + 1) dest

variable {tree : FileTree} {loc dest : Location} {names : List Text} {n : Nat}

/-! ## What the system follows -/

/-- What is said of a leg: it leads to where it arrives, and a way from the link that it meets is a way through it. -/
def Leg.Sound (tree : FileTree) (loc : Location) (names : List Text) : Leg → Prop
  | .arrived dest => Leads tree loc names 0 dest
  | .link start rest => ∀ n dest, Leads tree start rest n dest → Leads tree loc names (n + 1) dest
  | .failed _ => True

/-- What is said of the legs from a location carries over to those that begin with one more name. -/
theorem Leg.Sound.cons {leg : Leg} {origin : Location} {name : Text} {rest : List Text}
    (h : leg.Sound tree origin rest)
    (hstep : ∀ n dest, Leads tree origin rest n dest → Leads tree loc (name :: rest) n dest) :
    leg.Sound tree loc (name :: rest) := by
  cases leg with
  | arrived dest => exact hstep 0 dest h
  | link start names =>
    intro n dest hlead
    exact hstep (n + 1) dest (h n dest hlead)
  | failed e => trivial

/-- A way leads where its first name goes and the rest leads. -/
theorem Goes.leads {next : Location} {name : Text} (h : tree.Goes loc name next)
    (hlead : Leads tree next names n dest) : Leads tree loc (name :: names) n dest := by
  cases h with
  | stay hdir hstay => exact .stay hdir hstay hlead
  | up hdir hstay hup => exact .up hdir hstay hup hlead
  | down hdir hheld hentry hnolink =>
    exact .down hdir (not_or.mpr ⟨hheld.1, hheld.2.1⟩) hheld.2.2.1 hentry hnolink hlead

theorem sound_advance (tree : FileTree) (loc : Location) (names : List Text) :
    (tree.advance loc names).Sound tree loc names := by
  induction names generalizing loc with
  | nil => exact Leads.arrived loc
  | cons name rest ih =>
    rcases tree.advance_cons_cases loc name rest with ⟨next, hgoes⟩ | ⟨target, hdir, hheld, hlink, heq⟩ | ⟨e, heq⟩
    · rw [hgoes.advance]
      exact (ih next).cons fun n dest h => hgoes.leads h
    · rw [heq]
      intro n dest h
      exact .through hdir (not_or.mpr ⟨hheld.1, hheld.2.1⟩) hheld.2.2.1 hlink h
    · rw [heq]
      trivial

/-- Where the system arrives, the names lead. -/
theorem exists_leads_of_walk {links : Nat} (h : tree.walk links loc names = .ok dest) :
    ∃ n, Leads tree loc names n dest := by
  induction links generalizing loc names with
  | zero =>
    have hsound := sound_advance tree loc names
    rw [walk] at h
    split at h
    · rename_i harrived
      cases h
      rw [harrived] at hsound
      exact ⟨0, hsound⟩
    · cases h
    · cases h
  | succ links ih =>
    have hsound := sound_advance tree loc names
    rw [walk] at h
    split at h
    · rename_i harrived
      cases h
      rw [harrived] at hsound
      exact ⟨0, hsound⟩
    · rename_i start rest hlink
      obtain ⟨n, hn⟩ := ih h
      rw [hlink] at hsound
      exact ⟨n + 1, hsound n dest hn⟩
    · cases h

/-! ## Ways -/

/-- A way comes apart where its names do. -/
theorem Leads.split (h : Leads tree loc names n dest) {front back : List Text} (hnames : names = front ++ back) :
    ∃ mid k m, Leads tree loc front k mid ∧ Leads tree mid back m dest ∧ n = k + m := by
  induction h generalizing front with
  | arrived loc =>
    obtain ⟨rfl, rfl⟩ := List.nil_eq_append_iff.mp hnames
    exact ⟨loc, 0, 0, .arrived loc, .arrived loc, rfl⟩
  | @stay loc dest name rest n hdir hstay hlead ih =>
    rcases List.cons_eq_append_iff.mp hnames with ⟨rfl, rfl⟩ | ⟨front, rfl, hrest⟩
    · exact ⟨loc, 0, n, .arrived loc, .stay hdir hstay hlead, by omega⟩
    · obtain ⟨mid, k, m, hfront, hback, hn⟩ := ih hrest
      exact ⟨mid, k, m, .stay hdir hstay hfront, hback, hn⟩
  | @up loc dest name rest n hdir hstay hup hlead ih =>
    rcases List.cons_eq_append_iff.mp hnames with ⟨rfl, rfl⟩ | ⟨front, rfl, hrest⟩
    · exact ⟨loc, 0, n, .arrived loc, .up hdir hstay hup hlead, by omega⟩
    · obtain ⟨mid, k, m, hfront, hback, hn⟩ := ih hrest
      exact ⟨mid, k, m, .up hdir hstay hup hfront, hback, hn⟩
  | @down loc dest name rest n e hdir hstay hup hentry hnolink hlead ih =>
    rcases List.cons_eq_append_iff.mp hnames with ⟨rfl, rfl⟩ | ⟨front, rfl, hrest⟩
    · exact ⟨loc, 0, n, .arrived loc, .down hdir hstay hup hentry hnolink hlead, by omega⟩
    · obtain ⟨mid, k, m, hfront, hback, hn⟩ := ih hrest
      exact ⟨mid, k, m, .down hdir hstay hup hentry hnolink hfront, hback, hn⟩
  | @through loc dest name rest n target hdir hstay hup hlink hlead ih =>
    rcases List.cons_eq_append_iff.mp hnames with ⟨rfl, rfl⟩ | ⟨front, rfl, hrest⟩
    · exact ⟨loc, 0, n + 1, .arrived loc, .through hdir hstay hup hlink hlead, by omega⟩
    · -- the target stands in front of the names behind the link, so the way through it comes apart behind them
      obtain ⟨mid, k, m, hfront, hback, hn⟩ := ih (by rw [hrest, List.append_assoc])
      exact ⟨mid, k + 1, m, .through hdir hstay hup hlink hfront, hback, by omega⟩

/-- Names lead to one place, through one number of links. -/
theorem Leads.unique (h : Leads tree loc names n dest) {m : Nat} {dest' : Location}
    (h' : Leads tree loc names m dest') : n = m ∧ dest = dest' := by
  induction h generalizing m dest' with
  | arrived loc =>
    cases h'
    exact ⟨rfl, rfl⟩
  | stay hdir hstay hlead ih =>
    cases h' with
    | stay _ _ hlead' => exact ih hlead'
    | up _ hstay' => exact absurd hstay hstay'
    | down _ hstay' => exact absurd hstay hstay'
    | through _ hstay' => exact absurd hstay hstay'
  | up hdir hstay hup hlead ih =>
    cases h' with
    | stay _ hstay' => exact absurd hstay' hstay
    | up _ _ _ hlead' => exact ih hlead'
    | down _ _ hup' => exact absurd hup hup'
    | through _ _ hup' => exact absurd hup hup'
  | down hdir hstay hup hentry hnolink hlead ih =>
    cases h' with
    | stay _ hstay' => exact absurd hstay' hstay
    | up _ _ hup' => exact absurd hup' hup
    | down _ _ _ _ _ hlead' => exact ih hlead'
    | through _ _ _ hlink =>
      rw [hentry, Option.some.injEq] at hlink
      exact absurd hlink (hnolink _)
  | through hdir hstay hup hlink hlead ih =>
    cases h' with
    | stay _ hstay' => exact absurd hstay' hstay
    | up _ _ hup' => exact absurd hup' hup
    | down _ _ _ hentry hnolink =>
      rw [hlink, Option.some.injEq] at hentry
      exact absurd hentry.symm (hnolink _)
    | through _ _ _ hlink' hlead' =>
      rw [hlink, Option.some.injEq, Entry.link.injEq] at hlink'
      obtain ⟨rfl, rfl⟩ := ih (hlink' ▸ hlead')
      exact ⟨rfl, rfl⟩

/-- In a tree of files, a way from a directory leads to something that is there and no link. -/
theorem Leads.exists_entry (h : Leads tree loc names n dest) (hwell : tree.WellFormed)
    (hstart : ∃ e, tree.entry? loc = some e ∧ ∀ target, e ≠ .link target) :
    ∃ e, tree.entry? dest = some e ∧ ∀ target, e ≠ .link target := by
  have hdir : ∀ {l : Location}, tree.entry? l = some .dir → ∃ e, tree.entry? l = some e ∧ ∀ target, e ≠ .link target :=
    fun hentry => ⟨.dir, hentry, fun target heq => nomatch heq⟩
  induction h with
  | arrived loc => exact hstart
  | stay _ _ _ ih => exact ih hstart
  | up hentry _ _ _ ih => exact ih (hdir (hwell.dropLast hentry))
  | down _ _ _ hentry hnolink _ ih => exact ih ⟨_, hentry, hnolink⟩
  | @through loc _ _ _ _ target hentry _ _ _ _ ih => exact ih (hdir (isDir_linkStart hentry target))

/-! ## Canonical locations -/

/-- The locations of the links in a tree. -/
def links (tree : FileTree) : List Location :=
  tree.entries.filterMap fun e =>
    match e.2 with
    | .link _ => some e.1
    | _ => none

theorem mem_links {target : Text} (h : tree.entry? loc = some (.link target)) : loc ∈ tree.links := by
  have hne : loc ≠ [] := by
    rintro rfl
    rw [entry?_nil] at h
    cases h
  rw [entry?_of_ne_nil hne] at h
  exact List.mem_filterMap.mpr ⟨_, mem_of_lookup h, rfl⟩

theorem length_links_le (tree : FileTree) : tree.links.length ≤ tree.entries.length := List.length_filterMap_le _ _

/-- A new file leaves the links. -/
theorem links_set {mode : Nat} {content : Utf8.Bytes} (hfresh : tree.entry? loc = none) :
    (tree.set loc (.file mode content)).links = tree.links := by
  unfold links set
  rw [assign_of_lookup_none (lookup_of_entry?_none hfresh).2, List.filterMap_append]
  simp

/-- The links in `active` are being followed, with `depth` levels left and a way through `n` links ahead: they are
different links, the levels are enough for all the others, and the target of none of them leads somewhere through fewer
links. -/
structure Following (tree : FileTree) (depth n : Nat) (active : List Location) : Prop where
  nodup : active.Nodup
  link : ∀ loc ∈ active, loc ∈ tree.links
  enough : tree.links.length ≤ active.length + depth
  longer : ∀ dir name target k dest, dir ++ [name] ∈ active → tree.entry? (dir ++ [name]) = some (.link target) →
    Leads tree (linkStart dir target) (Path.pieces target) k dest → n ≤ k

section
variable {depth : Nat} {active : List Location}

theorem Following.mono (h : tree.Following depth n active) {m : Nat} (hm : m ≤ n) : tree.Following depth m active :=
  ⟨h.nodup, h.link, h.enough, fun dir name target k dest hmem hentry hlead =>
    Nat.le_trans hm (h.longer dir name target k dest hmem hentry hlead)⟩

/-- A link whose target takes fewer links than the way ahead is not being followed, and a level is left to follow it. -/
theorem Following.follow {dir mid : Location} {name target : Text} {k : Nat} (h : tree.Following depth n active)
    (hentry : tree.entry? (dir ++ [name]) = some (.link target))
    (hlead : Leads tree (linkStart dir target) (Path.pieces target) k mid) (hk : k < n) :
    dir ++ [name] ∉ active ∧ ∃ d, depth = d + 1 ∧ tree.Following d k ((dir ++ [name]) :: active) := by
  have hnew : dir ++ [name] ∉ active := by
    intro hmem
    have := h.longer dir name target k mid hmem hentry hlead
    omega
  have hnodup : ((dir ++ [name]) :: active).Nodup := List.nodup_cons.mpr ⟨hnew, h.nodup⟩
  have hlinks : ∀ loc ∈ (dir ++ [name]) :: active, loc ∈ tree.links := by
    intro loc hmem
    rcases List.mem_cons.mp hmem with rfl | hmem
    · exact mem_links hentry
    · exact h.link loc hmem
  have hroom : ((dir ++ [name]) :: active).length ≤ tree.links.length :=
    (List.subperm_of_subset hnodup hlinks).length_le
  have henough := h.enough
  rw [List.length_cons] at hroom
  refine ⟨hnew, depth - 1, by omega, hnodup, hlinks, by rw [List.length_cons]; omega, ?_⟩
  intro dir' name' target' k' dest' hmem hentry' hlead'
  rcases List.mem_cons.mp hmem with heq | hmem
  · obtain ⟨rfl, hname⟩ := List.append_inj' heq rfl
    rw [heq, hentry, Option.some.injEq, Entry.link.injEq] at hentry'
    subst hentry'
    exact Nat.le_of_eq (hlead.unique hlead').1
  · have := h.longer dir' name' target' k' dest' hmem hentry' hlead'
    omega

theorem resolve_stay {name : Text} (h : name = [] ∨ name = Path.dot) (rest : List Text) :
    tree.resolve depth active loc (name :: rest) = tree.resolve depth active loc rest := by
  cases depth <;> simp only [resolve, resolveWith, h, if_true]

theorem resolve_up {name : Text} (hstay : ¬(name = [] ∨ name = Path.dot)) (h : name = Path.dotDot) (rest : List Text) :
    tree.resolve depth active loc (name :: rest) = tree.resolve depth active loc.dropLast rest := by
  cases depth <;> simp only [resolve, resolveWith, if_neg hstay, if_pos h]

theorem resolve_down {name : Text} {e : Entry} (hstay : ¬(name = [] ∨ name = Path.dot)) (hup : name ≠ Path.dotDot)
    (hentry : tree.entry? (loc ++ [name]) = some e) (hnolink : ∀ target, e ≠ .link target) (rest : List Text) :
    tree.resolve depth active loc (name :: rest) = tree.resolve depth active (loc ++ [name]) rest := by
  cases e with
  | link target => exact absurd rfl (hnolink target)
  | file mode content => cases depth <;> simp only [resolve, resolveWith, if_neg hstay, if_neg hup, hentry]
  | dir => cases depth <;> simp only [resolve, resolveWith, if_neg hstay, if_neg hup, hentry]

theorem resolve_through {name target : Text} {mid : Location} (hstay : ¬(name = [] ∨ name = Path.dot))
    (hup : name ≠ Path.dotDot) (hentry : tree.entry? (loc ++ [name]) = some (.link target))
    (hnew : loc ++ [name] ∉ active)
    (hfollow :
      tree.resolve depth ((loc ++ [name]) :: active) (linkStart loc target) (Path.pieces target) = .settled mid)
    (rest : List Text) :
    tree.resolve (depth + 1) active loc (name :: rest) = tree.resolve (depth + 1) active mid rest := by
  simp only [resolve, resolveWith, if_neg hstay, if_neg hup, hentry, if_neg hnew, hfollow]

/-- Following the links of a way one by one comes to where it leads. By induction on the number of links, and for each
on the names. -/
theorem resolve_of_leads (h : tree.Following depth n active) (hlead : Leads tree loc names n dest) :
    tree.resolve depth active loc names = .settled dest := by
  induction n using Nat.strongRecOn generalizing depth active loc names dest with
  | _ n ihlinks =>
    induction names generalizing loc with
    | nil =>
      cases hlead
      cases depth <;> rfl
    | cons name rest ihnames =>
      cases hlead with
      | stay _ hstay hlead =>
        rw [resolve_stay hstay]
        exact ihnames hlead
      | up _ hstay hup hlead =>
        rw [resolve_up hstay hup]
        exact ihnames hlead
      | down _ hstay hup hentry hnolink hlead =>
        rw [resolve_down hstay hup hentry hnolink]
        exact ihnames hlead
      | @through _ _ _ _ n target _ hstay hup hlink hlead =>
        obtain ⟨mid, k, m, htarget, hrest, hn⟩ := hlead.split rfl
        obtain ⟨hnew, d, rfl, hnext⟩ := h.follow hlink htarget (by omega)
        have hfollow := ihlinks k (by omega) hnext htarget
        rw [resolve_through hstay hup hlink hnew hfollow]
        exact ihlinks m (by omega) (h.mono (by omega)) hrest

end

/-- Where the system finds something, there following the links comes to, if there are as many levels as links. -/
theorem resolve_of_find {p : Path} {depth : Nat} (hdepth : tree.links.length ≤ depth) (h : tree.find p = .ok dest) :
    tree.resolve depth [] (tree.startOf p) p.names = .settled dest := by
  unfold find at h
  split at h
  · cases h
  · obtain ⟨n, hlead⟩ := exists_leads_of_walk h
    have hfollowing : tree.Following depth n [] := by
      refine ⟨List.nodup_nil, ?_, by simpa using hdepth, ?_⟩
      · intro loc hmem
        cases hmem
      · intro dir name target k dest hmem
        cases hmem
    exact resolve_of_leads hfollowing hlead

/-- Where the system finds something, there the path stands for. -/
theorem canonical_of_find {p : Path} (h : tree.find p = .ok dest) : tree.canonical p = dest := by
  rw [canonical, resolve_of_find (length_links_le tree) h]

/-- What following links comes to shows in the links alone. -/
theorem resolveWith_congr {a b : FileTree} {follow : List Location → Location → List Text → Canonical}
    (h : ∀ loc target, a.entry? loc = some (.link target) ↔ b.entry? loc = some (.link target))
    (active : List Location) (loc : Location) (names : List Text) :
    a.resolveWith follow active loc names = b.resolveWith follow active loc names := by
  induction names generalizing loc with
  | nil => rfl
  | cons name rest ih =>
    rw [resolveWith, resolveWith, ih loc, ih loc.dropLast, ih (loc ++ [name])]
    by_cases hlink : ∃ target, a.entry? (loc ++ [name]) = some (.link target)
    · obtain ⟨target, hlink⟩ := hlink
      simp only [hlink, (h _ target).mp hlink, ih]
    · have hlink' : ¬∃ target, b.entry? (loc ++ [name]) = some (.link target) := by
        rintro ⟨target, hb⟩
        exact hlink ⟨target, (h _ target).mpr hb⟩
      split
      · rfl
      split
      · rfl
      split
      · rename_i target ha
        exact absurd ⟨target, ha⟩ hlink
      split
      · rename_i target hb
        exact absurd ⟨target, hb⟩ hlink'
      · rfl

theorem resolve_congr {a b : FileTree}
    (h : ∀ loc target, a.entry? loc = some (.link target) ↔ b.entry? loc = some (.link target)) (depth : Nat) :
    a.resolve depth = b.resolve depth := by
  induction depth with
  | zero =>
    funext active loc names
    exact resolveWith_congr h active loc names
  | succ depth ih =>
    funext active loc names
    rw [resolve, resolve, ih]
    exact resolveWith_congr h active loc names

/-- In a tree of files, what the system finds is there and no link. -/
theorem exists_entry_of_find (hwell : tree.WellFormed) {p : Path} (h : tree.find p = .ok dest) :
    ∃ e, tree.entry? dest = some e ∧ ∀ target, e ≠ .link target := by
  unfold find at h
  split at h
  · cases h
  · obtain ⟨n, hlead⟩ := exists_leads_of_walk h
    exact hlead.exists_entry hwell ⟨.dir, hwell.isDir_startOf p, fun target heq => nomatch heq⟩

/-- In a tree of files, what is written for a path goes where the system finds what the path leads to. -/
theorem destination_of_find (hwell : tree.WellFormed) {p : Path} (hnul : p.hasNul = false)
    (h : tree.find p = .ok dest) : tree.destination p = .ok dest := by
  obtain ⟨e, hentry, hnolink⟩ := exists_entry_of_find hwell h
  rw [destination, hnul, canonical_of_find h]
  simp only [Bool.false_eq_true, if_false, walk_of_advance (hwell.arrived hentry hnolink)]

/-! ## Settled locations -/

/-- The names of a location are plain and lead through no link, also not at the end. -/
def Direct (tree : FileTree) (loc : Location) : Prop :=
  ∀ front name back, loc = front ++ name :: back →
    ¬(name = [] ∨ name = Path.dot) ∧ name ≠ Path.dotDot ∧ ∀ target, tree.entry? (front ++ [name]) ≠ some (.link target)

/-- The links of a path can all be followed to their end; what is there then may be anything or nothing. -/
def Settles (tree : FileTree) (p : Path) : Prop :=
  ∃ loc, tree.resolve tree.entries.length [] (tree.startOf p) p.names = .settled loc

theorem direct_nil (tree : FileTree) : tree.Direct [] := by
  intro front name back h
  simp at h

theorem Direct.of_append {back : Location} (h : tree.Direct (loc ++ back)) : tree.Direct loc := by
  intro front name rest hloc
  exact h front name (rest ++ back) (by rw [hloc, List.append_assoc, List.cons_append])

theorem Direct.dropLast (h : tree.Direct loc) : tree.Direct loc.dropLast := by
  rcases List.eq_nil_or_concat loc with rfl | ⟨dir, name, rfl⟩
  · exact h
  · rw [List.concat_eq_append] at h ⊢
    rw [List.dropLast_concat]
    exact h.of_append

/-- One more plain name at which no link stands. -/
theorem Direct.down {name : Text} (h : tree.Direct loc) (hstay : ¬(name = [] ∨ name = Path.dot))
    (hup : name ≠ Path.dotDot) (hnolink : ∀ target, tree.entry? (loc ++ [name]) ≠ some (.link target)) :
    tree.Direct (loc ++ [name]) := by
  intro front name' back hloc
  rcases List.eq_nil_or_concat back with rfl | ⟨back, last, rfl⟩
  · obtain ⟨rfl, hname⟩ := List.append_inj' hloc rfl
    cases hname
    exact ⟨hstay, hup, hnolink⟩
  · rw [List.concat_eq_append, ← List.cons_append, ← List.append_assoc] at hloc
    exact h front name' back (List.append_inj' hloc rfl).1

/-- In a tree of files every directory is where its names say. -/
theorem WellFormed.direct (h : tree.WellFormed) (hdir : tree.entry? loc = some .dir) : tree.Direct loc := by
  intro front name back hloc
  have hentry : tree.entry? (front ++ [name]) = some .dir := by
    by_cases hback : back = []
    · rw [hback] at hloc
      rw [← hloc, hdir]
    · rw [hloc, ← List.singleton_append, ← List.append_assoc] at hdir
      exact h.isDir hback hdir
  obtain ⟨-, hempty, hdot, hdotDot, -⟩ := h.parent front name .dir hentry
  refine ⟨not_or.mpr ⟨hempty, hdot⟩, hdotDot, ?_⟩
  intro target hlink
  rw [hentry] at hlink
  cases hlink

theorem direct_linkStart (h : tree.Direct loc) (target : Text) : tree.Direct (linkStart loc target) := by
  unfold linkStart
  split
  · exact direct_nil tree
  · exact h

/-- What is left when all links have been followed leads through no link. -/
theorem direct_of_resolveWith {follow : List Location → Location → List Text → Canonical} {active : List Location}
    (hfollow : ∀ active loc names dest, follow active loc names = .settled dest → tree.Direct loc → tree.Direct dest)
    (h : tree.resolveWith follow active loc names = .settled dest) (hloc : tree.Direct loc) : tree.Direct dest := by
  induction names generalizing loc with
  | nil =>
    cases h
    exact hloc
  | cons name rest ih =>
    rw [resolveWith] at h
    split at h
    · exact ih h hloc
    rename_i hstay
    split at h
    · exact ih h hloc.dropLast
    rename_i hup
    split at h
    · rename_i target hlink
      split at h
      · cases h
      split at h
      · rename_i next hnext
        exact ih h (hfollow _ _ _ _ hnext (direct_linkStart hloc target))
      · cases h
    · rename_i hnolink
      exact ih h (hloc.down hstay hup hnolink)

theorem direct_of_resolve {depth : Nat} {active : List Location}
    (h : tree.resolve depth active loc names = .settled dest) (hloc : tree.Direct loc) : tree.Direct dest := by
  induction depth generalizing active loc names dest with
  | zero =>
    refine direct_of_resolveWith ?_ h hloc
    intro _ _ _ _ hcircular
    cases hcircular
  | succ depth ih => exact direct_of_resolveWith (fun _ _ _ _ => ih) h hloc

/-- In a tree of files, the canonical location of a path whose links can all be followed leads through no link. -/
theorem Settles.direct {p : Path} (h : tree.Settles p) (hwell : tree.WellFormed) : tree.Direct (tree.canonical p) := by
  obtain ⟨loc, hloc⟩ := h
  rw [canonical, hloc]
  exact direct_of_resolve hloc (hwell.direct (hwell.isDir_startOf p))

/-- Names that lead through no link lead where they say, or nowhere. -/
theorem Direct.advance (h : tree.Direct (loc ++ names)) :
    tree.advance loc names = .arrived (loc ++ names) ∨ ∃ e, tree.advance loc names = .failed e := by
  induction names generalizing loc with
  | nil =>
    rw [List.append_nil]
    exact .inl rfl
  | cons name rest ih =>
    obtain ⟨hstay, hup, hnolink⟩ := h loc name rest rfl
    rw [← List.singleton_append, ← List.append_assoc] at h
    rw [FileTree.advance]
    split
    · exact .inr ⟨_, rfl⟩
    · rw [if_neg hstay, if_neg hup]
      split
      · exact .inr ⟨_, rfl⟩
      split
      · exact .inr ⟨_, rfl⟩
      · rename_i target hlink
        exact absurd hlink (hnolink target)
      · have hrest := ih h
        rwa [List.append_assoc, List.singleton_append] at hrest
    · exact .inr ⟨_, rfl⟩

/-- What is found at a location that leads through no link is found there. -/
theorem Direct.eq_of_walk {links : Nat} (h : tree.Direct loc) (hwalk : tree.walk links [] loc = .ok dest) :
    dest = loc := by
  have hadvance : tree.advance [] loc = .arrived loc ∨ ∃ e, tree.advance [] loc = .failed e :=
    Direct.advance (show tree.Direct ([] ++ loc) from h)
  rcases hadvance with harrived | ⟨e, hfailed⟩
  · rw [walk_of_advance harrived links] at hwalk
    exact (Except.ok.inj hwalk).symm
  · cases links with
    | zero =>
      rw [walk, hfailed] at hwalk
      cases hwalk
    | succ links =>
      rw [walk, hfailed] at hwalk
      cases hwalk

end Redeclare.FileTree
