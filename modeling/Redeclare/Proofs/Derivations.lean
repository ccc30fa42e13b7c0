import Mathlib.Data.List.Induction
import Mathlib.Data.List.Nodup
import Redeclare.Proofs.Contents
import Redeclare.Proofs.Numerals
import Redeclare.Proofs.RoundTrip

/-!
# Documents and the grammar

The reader takes a value exactly when the grammar derives it. What it takes is derived, by induction on its fuel. What
is derived is taken, by recursion on the derivation: of a text with `n` characters that are no blanks, `2 * n + 1` units
of fuel are enough. Blanks may stand on both sides of every bracket, brace, colon and comma, so a derived value is taken
behind its first blanks, and what is left of the text is what stands behind it, but for blanks.
-/

namespace Redeclare.Grammar

open Json

/-! ## Repeated names -/

theorem ofPairs_concat (written : Members) (m : Text × Json) :
    Members.ofPairs (written ++ [m]) = Members.put m.1 m.2 (Members.ofPairs written) := by
  simp [Members.ofPairs]

/-- The members that are read are kept of those that were written. -/
theorem kept_ofPairs (written : Members) : Kept written (Members.ofPairs written) := by
  induction written using List.reverseRecOn with
  | nil => exact ⟨rfl, nofun⟩
  | append_singleton written m ih =>
    have hput := ofPairs_concat written m
    have hnodup := Members.nodup_ofPairs (written ++ [m])
    constructor
    · rw [hput, Members.names_put, ih.names, List.map_append, List.eraseDups_append, List.map_singleton]
      by_cases hmem : m.1 ∈ written.map (·.1)
      · simp [List.removeAll, hmem]
      · simp [List.removeAll, hmem, List.eraseDups_cons]
    · intro k hk
      by_cases hname : k.1 = m.1
      · -- the last pair, because no other member has its name
        have hm : m ∈ Members.ofPairs (written ++ [m]) := by
          rw [hput]
          exact Members.mem_of_get? (Members.get?_put_self m.1 m.2 _)
        rw [List.inj_on_of_nodup_map hnodup hk hm hname]
        exact ⟨written, [], rfl, List.not_mem_nil⟩
      · rw [hput] at hk
        rcases Members.mem_put hk with hk | ⟨h, -⟩
        · obtain ⟨before, after, rfl, hlast⟩ := ih.last k hk
          refine ⟨before, after ++ [m], by simp, ?_⟩
          simpa [hname] using hlast
        · exact absurd h hname

/-- The last value of a name is one. -/
theorem eq_of_last {written before after before' after' : Members} {m m' : Text × Json}
    (h : written = before ++ m :: after) (hlast : m.1 ∉ after.map (·.1)) (h' : written = before' ++ m' :: after')
    (hlast' : m'.1 ∉ after'.map (·.1)) (hname : m.1 = m'.1) : m = m' := by
  rcases List.append_eq_append_iff.mp (h.symm.trans h') with ⟨between, -, hsplit⟩ | ⟨between, -, hsplit⟩
  · cases between with
    | nil =>
      cases hsplit
      rfl
    | cons m₀ between =>
      cases hsplit
      exact absurd (by simp [hname]) hlast
  · cases between with
    | nil =>
      cases hsplit
      rfl
    | cons m₀ between =>
      cases hsplit
      exact absurd (by simp [hname]) hlast'

theorem eq_of_names {as bs : Members} (hnames : as.map (·.1) = bs.map (·.1))
    (h : ∀ m ∈ as, ∀ m' ∈ bs, m.1 = m'.1 → m = m') : as = bs := by
  induction as generalizing bs with
  | nil => cases bs <;> simp_all
  | cons m as ih =>
    cases bs with
    | nil => cases hnames
    | cons m' bs =>
      rw [List.map_cons, List.map_cons, List.cons.injEq] at hnames
      rw [h m List.mem_cons_self m' List.mem_cons_self hnames.1,
        ih hnames.2 fun m hm m' hm' => h m (List.mem_cons_of_mem _ hm) m' (List.mem_cons_of_mem _ hm')]

/-- The members that are kept are those that were read. -/
theorem Kept.eq_ofPairs {written members : Members} (h : Kept written members) :
    members = Members.ofPairs written := by
  have hread := kept_ofPairs written
  apply eq_of_names (h.names.trans hread.names.symm)
  intro m hm m' hm' hname
  obtain ⟨before, after, hsplit, hlast⟩ := h.last m hm
  obtain ⟨before', after', hsplit', hlast'⟩ := hread.last m' hm'
  exact eq_of_last hsplit hlast hsplit' hlast' hname

/-! ## Blanks -/

theorem Blanks.isBlank {cs : List Char} (h : Blanks cs) : ∀ c ∈ cs, isBlank c = true := by
  intro c hc
  rcases h c hc with rfl | rfl | rfl | rfl <;> rfl

theorem Blanks.skip {cs : List Char} (h : Blanks cs) (rest : List Char) : skipBlanks (cs ++ rest) = skipBlanks rest :=
  List.dropWhile_append_of_pos h.isBlank

/-- A text is its first blanks and what stands behind them. -/
theorem exists_blanks (cs : List Char) : ∃ blanks, Blanks blanks ∧ cs = blanks ++ skipBlanks cs := by
  refine ⟨cs.takeWhile isBlank, ?_, List.takeWhile_append_dropWhile.symm⟩
  intro c hc
  have hblank := List.mem_takeWhile_imp hc
  simpa [Json.isBlank, or_assoc] using hblank

section
variable {c : Char} {cs rest left : List Char}

/-- A character of the structure stands behind the first blanks. -/
theorem Structural.skip (h : Structural c cs) (hc : isBlank c = false) (rest : List Char) :
    ∃ tail, skipBlanks (cs ++ rest) = c :: tail ∧ skipBlanks tail = skipBlanks rest := by
  cases h with
  | @mk before after hbefore hafter =>
    refine ⟨after ++ rest, ?_, hafter.skip rest⟩
    rw [List.append_assoc, hbefore.skip, List.cons_append, skipBlanks_cons hc]

/-- A text whose first character behind its blanks is one of the structure. -/
theorem exists_structural (h : skipBlanks cs = c :: rest) :
    ∃ text, cs = text ++ skipBlanks rest ∧ Structural c text := by
  obtain ⟨before, hbefore, hcs⟩ := exists_blanks cs
  obtain ⟨after, hafter, hrest⟩ := exists_blanks rest
  refine ⟨before ++ c :: after, ?_, .mk hbefore hafter⟩
  rw [hcs, h, List.append_assoc, List.cons_append, ← hrest]

/-- The same, with the blanks behind the character left to the rest. -/
theorem exists_structural_closing (h : skipBlanks cs = c :: rest) : ∃ text, cs = text ++ rest ∧ Structural c text := by
  obtain ⟨before, hbefore, hcs⟩ := exists_blanks cs
  refine ⟨before ++ [c], ?_, .mk hbefore nofun⟩
  rw [hcs, h]
  simp

theorem Blanks.delimited {blanks : List Char} (h : Blanks blanks) (hr : Delimited rest) :
    Delimited (blanks ++ rest) := by
  cases blanks with
  | nil => exact hr
  | cons c blanks =>
    intro d hd
    cases hd
    exact .inl (h.isBlank c List.mem_cons_self)

theorem Structural.delimited (h : Structural c cs) (hc : c = ',' ∨ c = ']' ∨ c = '\x7d') (rest : List Char) :
    Delimited (cs ++ rest) := by
  cases h with
  | mk hbefore hafter =>
    rw [List.append_assoc, List.cons_append]
    apply hbefore.delimited
    intro d hd
    cases hd
    exact .inr hc

end

/-! ## What is taken is derived -/

theorem exists_value_of_takeScalar {cs rest : List Char} {v : Json} (h : takeScalar cs = .ok (v, rest)) :
    ∃ text, cs = text ++ rest ∧ Value text v := by
  unfold takeScalar at h
  split at h
  · rename_i word value hfind
    cases h
    have hmem := List.mem_of_find?_eq_some hfind
    have hfront := List.find?_some hfind
    obtain ⟨rest, rfl⟩ := List.isPrefixOf_iff_prefix.mp hfront
    refine ⟨word, by rw [List.drop_left], ?_⟩
    simp only [words, List.mem_cons, List.not_mem_nil, or_false, Prod.mk.injEq] at hmem
    rcases hmem with ⟨rfl, rfl⟩ | ⟨rfl, rfl⟩ | ⟨rfl, rfl⟩
    · exact .null
    · exact .yes
    · exact .no
  split at h
  · cases h
  · obtain ⟨text, rfl, hnumber⟩ := exists_number_of_takeNumber h
    exact ⟨text, rfl, .number hnumber⟩

/-- What the items of an array are derived from, with the closing bracket. -/
def ItemsTaken (fuel : Nat) : Prop :=
  ∀ {cs rest : List Char} {items : List Json}, takeItems fuel cs = .ok (items, rest) →
    ∃ text closing, cs = text ++ (closing ++ rest) ∧ Items text items ∧ Structural ']' closing

/-- What the members of an object are derived from, with the closing brace. -/
def MembersTaken (fuel : Nat) : Prop :=
  ∀ {cs rest : List Char} {written : Members}, takeMembers fuel cs = .ok (written, rest) →
    ∃ text closing, cs = text ++ (closing ++ rest) ∧ Pairs text written ∧ Structural '\x7d' closing

/-- What a value is derived from. -/
def ValueTaken (fuel : Nat) : Prop :=
  ∀ {cs rest : List Char} {v : Json}, takeValue fuel cs = .ok (v, rest) → ∃ text, cs = text ++ rest ∧ Value text v

theorem valueTaken_succ {fuel : Nat} (hitems : ItemsTaken fuel) (hmembers : MembersTaken fuel) :
    ValueTaken (fuel + 1) := by
  intro cs rest v h
  cases cs with
  | nil => cases h
  | cons c cs =>
    rcases first_cases c with rfl | rfl | rfl | ⟨hquote, hbrace, hbracket⟩
    · rw [takeValue_quote] at h
      obtain ⟨t, ht, rfl⟩ := exists_of_as h
      obtain ⟨body, rfl, hbody⟩ := exists_content_of_takeString ht
      exact ⟨'"' :: body ++ ['"'], by simp, .str (.mk hbody)⟩
    · by_cases hempty : (skipBlanks cs).head? = some ']'
      · obtain ⟨tail, htail⟩ := List.head?_eq_some_iff.mp hempty
        rw [takeValue_brackets fuel htail] at h
        cases h
        obtain ⟨closing, rfl, hclosing⟩ := exists_structural_closing htail
        exact ⟨['['] ++ closing, by simp, .emptyArr (@Structural.mk '[' [] [] nofun nofun) hclosing⟩
      · rw [takeValue_bracket fuel hempty] at h
        obtain ⟨items, htake, rfl⟩ := exists_of_as h
        obtain ⟨text, closing, htext, hderived, hclosing⟩ := hitems htake
        obtain ⟨opening, hopening, hstructural⟩ :=
          exists_structural (show skipBlanks ('[' :: cs) = '[' :: cs from rfl)
        exact ⟨opening ++ text ++ closing, by rw [hopening, htext]; simp, .arr hstructural hderived hclosing⟩
    · by_cases hempty : (skipBlanks cs).head? = some '\x7d'
      · obtain ⟨tail, htail⟩ := List.head?_eq_some_iff.mp hempty
        rw [takeValue_braces fuel htail] at h
        cases h
        obtain ⟨closing, rfl, hclosing⟩ := exists_structural_closing htail
        exact ⟨['\x7b'] ++ closing, by simp, .emptyObj (@Structural.mk '\x7b' [] [] nofun nofun) hclosing⟩
      · rw [takeValue_brace fuel hempty] at h
        obtain ⟨written, htake, rfl⟩ := exists_of_as h
        obtain ⟨text, closing, htext, hderived, hclosing⟩ := hmembers htake
        obtain ⟨opening, hopening, hstructural⟩ :=
          exists_structural (show skipBlanks ('\x7b' :: cs) = '\x7b' :: cs from rfl)
        exact ⟨opening ++ text ++ closing, by rw [hopening, htext]; simp,
          .obj hstructural hderived hclosing (kept_ofPairs written)⟩
    · rw [takeValue_scalar fuel hquote hbrace hbracket] at h
      exact exists_value_of_takeScalar h

theorem itemsTaken_succ {fuel : Nat} (hvalue : ValueTaken fuel) (hitems : ItemsTaken fuel) : ItemsTaken (fuel + 1) := by
  intro cs rest items h
  rw [takeItems_succ] at h
  obtain ⟨v, left, hone, hbehind⟩ := exists_of_series h
  obtain ⟨text, rfl, hv⟩ := hvalue hone
  rcases hbehind with ⟨hclosing, rfl⟩ | ⟨tail, more, hcomma, hnext, rfl⟩
  · obtain ⟨closing, rfl, hstructural⟩ := exists_structural_closing hclosing
    exact ⟨text, closing, rfl, .one hv, hstructural⟩
  · obtain ⟨comma, rfl, hstructural⟩ := exists_structural hcomma
    obtain ⟨others, closing, htext, hothers, hclosing⟩ := hitems hnext
    exact ⟨text ++ comma ++ others, closing, by rw [htext]; simp, .more hv hstructural hothers, hclosing⟩

/-- A member that is taken is a name, a colon and a value. -/
theorem exists_of_takeMember {fuel : Nat} (hvalue : ValueTaken fuel) {cs rest : List Char} {m : Text × Json}
    (h : takeMember fuel cs = .ok (m, rest)) :
    ∃ name colon text, cs = name ++ (colon ++ (text ++ rest)) ∧ Quoted name m.1 ∧ Structural ':' colon ∧
      Value text m.2 := by
  cases cs with
  | nil => cases h
  | cons c cs =>
    rw [takeMember] at h
    split_ifs at h with hquote
    split at h
    · cases h
    · rename_i key left hstring
      split at h
      · cases h
      · rename_i d tail hskip
        split_ifs at h with hcolon
        subst hcolon
        obtain ⟨v, hv, rfl⟩ := exists_of_as h
        obtain ⟨body, rfl, hbody⟩ := exists_content_of_takeString hstring
        obtain ⟨colon, rfl, hstructural⟩ := exists_structural hskip
        obtain ⟨text, htext, hderived⟩ := hvalue hv
        exact ⟨'"' :: body ++ ['"'], colon, text, by rw [hquote, htext]; simp, .mk hbody, hstructural, hderived⟩

theorem membersTaken_succ {fuel : Nat} (hvalue : ValueTaken fuel) (hmembers : MembersTaken fuel) :
    MembersTaken (fuel + 1) := by
  intro cs rest written h
  rw [takeMembers_succ] at h
  obtain ⟨⟨key, v⟩, left, hone, hbehind⟩ := exists_of_series h
  obtain ⟨name, colon, text, rfl, hname, hcolon, hv⟩ := exists_of_takeMember hvalue hone
  rcases hbehind with ⟨hclosing, rfl⟩ | ⟨tail, more, hcomma, hnext, rfl⟩
  · obtain ⟨closing, rfl, hstructural⟩ := exists_structural_closing hclosing
    exact ⟨name ++ colon ++ text, closing, by simp, .one hname hcolon hv, hstructural⟩
  · obtain ⟨comma, rfl, hstructural⟩ := exists_structural hcomma
    obtain ⟨others, closing, htext, hothers, hclosing⟩ := hmembers hnext
    exact ⟨name ++ colon ++ text ++ comma ++ others, closing, by rw [htext]; simp,
      .more hname hcolon hv hstructural hothers, hclosing⟩

/-- Whatever is taken is derived, whatever the fuel. -/
theorem taken_of_take (fuel : Nat) : ValueTaken fuel ∧ ItemsTaken fuel ∧ MembersTaken fuel := by
  induction fuel with
  | zero =>
    refine ⟨?_, ?_, ?_⟩
    · intro cs rest v h
      cases h
    · intro cs rest items h
      cases h
    · intro cs rest written h
      cases h
  | succ fuel ih =>
    obtain ⟨hvalue, hitems, hmembers⟩ := ih
    exact ⟨valueTaken_succ hitems hmembers, itemsTaken_succ hvalue hitems, membersTaken_succ hvalue hmembers⟩

/-! ## What is derived is taken -/

/-- The number of characters that are no blanks. -/
def weight (cs : List Char) : Nat := cs.countP fun c => !isBlank c

@[simp] theorem weight_append (a b : List Char) : weight (a ++ b) = weight a + weight b := List.countP_append

theorem Blanks.weight {cs : List Char} (h : Blanks cs) : weight cs = 0 := by
  rw [Grammar.weight, List.countP_eq_zero]
  intro c hc
  simp [h.isBlank c hc]

theorem Structural.weight {c : Char} {cs : List Char} (h : Structural c cs) (hc : Json.isBlank c = false) :
    weight cs = 1 := by
  cases h with
  | @mk before after hbefore hafter =>
    have hcons : Grammar.weight (c :: after) = Grammar.weight after + 1 := List.countP_cons_of_pos (by simp [hc])
    rw [weight_append, hbefore.weight, hcons, hafter.weight]

/-- A text that is taken as a value begins with no blank. -/
theorem skipBlanks_of_takeValue {fuel : Nat} {cs rest : List Char} {v : Json} (h : takeValue fuel cs = .ok (v, rest)) :
    skipBlanks cs = cs :=
  (starts_of_takeValue (show takeValue fuel cs = taken none v rest from h)).skipBlanks

/-- A string is taken behind its opening quote. -/
theorem Quoted.exists_content {cs : List Char} {t : Text} (h : Quoted cs t) (rest : List Char) :
    ∃ tail, cs ++ rest = '"' :: tail ∧ takeString ('"' :: tail) tail = .ok (t, rest) := by
  cases h with
  | @mk body t hbody =>
    refine ⟨body ++ '"' :: rest, by simp, hbody.takeString _ rest⟩

/-- A name and a colon in front of a value. -/
theorem Quoted.takeMember {name colon : List Char} {key : Text} (h : Quoted name key) (hcolon : Structural ':' colon)
    (fuel : Nat) (rest : List Char) :
    takeMember fuel (skipBlanks (name ++ (colon ++ rest))) = Taken.as (key, ·) (takeValue fuel (skipBlanks rest)) := by
  obtain ⟨tail, hname, hstring⟩ := h.exists_content (colon ++ rest)
  obtain ⟨behind, hskip, hrest⟩ := hcolon.skip rfl rest
  rw [hname, skipBlanks_cons rfl, Json.takeMember, if_pos rfl, hstring]
  dsimp only
  rw [hskip]
  dsimp only
  rw [if_pos rfl, hrest]

/-- Members begin with a quote. -/
theorem head?_of_takeMembers {fuel : Nat} {cs rest : List Char} {found : Option (List Char)} {written : Members}
    (h : takeMembers fuel cs = taken found written rest) : cs.head? = some '"' := by
  by_contra hquote
  have hstray : takeMembers fuel cs = .error (.malformed .name cs) := by
    cases fuel with
    | zero => rfl
    | succ fuel =>
      cases cs with
      | nil => rfl
      | cons c cs =>
        have hc : c ≠ '"' := by simpa using hquote
        rw [takeMembers, if_neg hc]
  exact taken_ne_malformed (h.symm.trans hstray)

section
variable {α : Type} {closing : Char} {one : List Char → Taken α} {next : List Char → Taken (List α)}
  {cs text rest left : List Char} {a : α}

/-- The last of several, with the closing character and blanks behind it. -/
theorem exists_series_closing (hone : one cs = .ok (a, left)) (hleft : skipBlanks left = skipBlanks (text ++ rest))
    (htext : Structural closing text) (hblank : isBlank closing = false) :
    ∃ behind, series closing one next cs = .ok ([a], behind) ∧ skipBlanks behind = skipBlanks rest := by
  obtain ⟨tail, hskip, hrest⟩ := htext.skip hblank rest
  exact ⟨tail, series_closing hone (hleft.trans hskip), hrest⟩

/-- One of several, with a comma and blanks behind it. -/
theorem series_structural_comma (hone : one cs = .ok (a, left)) (hleft : skipBlanks left = skipBlanks (text ++ rest))
    (htext : Structural ',' text) (hclosing : closing ≠ ',') :
    series closing one next cs = Taken.as (a :: ·) (next (skipBlanks rest)) := by
  obtain ⟨tail, hskip, hrest⟩ := htext.skip rfl rest
  rw [series_comma hclosing hone (hleft.trans hskip), hrest]

end

mutual

/-- A value that is derived is taken, and what stands behind it is left but for blanks. -/
theorem Value.take {cs rest : List Char} {v : Json} (h : Value cs v) (hr : Delimited rest) (fuel : Nat)
    (hfuel : 2 * weight cs + 1 ≤ fuel) :
    ∃ left, takeValue fuel (skipBlanks (cs ++ rest)) = .ok (v, left) ∧ skipBlanks left = skipBlanks rest := by
  obtain ⟨fuel, rfl⟩ : ∃ n, fuel = n + 1 := ⟨fuel - 1, by omega⟩
  match h with
  | .null =>
    exact ⟨rest, takeValue_word (show (['n', 'u', 'l', 'l'], Json.null) ∈ words by simp [words]) fuel rest, rfl⟩
  | .yes =>
    exact ⟨rest, takeValue_word (show (['t', 'r', 'u', 'e'], Json.bool true) ∈ words by simp [words]) fuel rest, rfl⟩
  | .no =>
    exact ⟨rest, takeValue_word (show (['f', 'a', 'l', 's', 'e'], Json.bool false) ∈ words by simp [words]) fuel rest,
      rfl⟩
  | .number hnumber =>
    have htake := takeValue_of_takeNumber fuel (hnumber.takeNumber hr)
    exact ⟨rest, by rw [skipBlanks_of_takeValue htake, htake], rfl⟩
  | .str hquoted =>
    obtain ⟨tail, htail, hstring⟩ := hquoted.exists_content rest
    refine ⟨rest, ?_, rfl⟩
    rw [htail, skipBlanks_cons rfl, takeValue_quote, hstring, Taken.as]
  | @Value.emptyArr opening closing hopening hclosing =>
    obtain ⟨tail, htail, hskip⟩ := hopening.skip rfl (closing ++ rest)
    obtain ⟨left, hleft, hrest⟩ := hclosing.skip rfl rest
    exact ⟨left, by rw [List.append_assoc, htail, takeValue_brackets fuel (hskip.trans hleft)], hrest⟩
  | @Value.arr opening cs closing items hopening hitems hclosing =>
    rw [weight_append, weight_append, hopening.weight rfl, hclosing.weight rfl] at hfuel
    obtain ⟨tail, htail, hskip⟩ := hopening.skip rfl (cs ++ (closing ++ rest))
    obtain ⟨left, htake, hleft⟩ := hitems.take hclosing rest fuel (by omega)
    have hne : (skipBlanks tail).head? ≠ some ']' := by
      obtain ⟨c, _, hc, -, hne, -⟩ := starts_of_takeItems (show takeItems fuel _ = taken none items left from htake)
      rw [hskip, hc]
      simpa using hne
    refine ⟨left, ?_, hleft⟩
    rw [List.append_assoc, List.append_assoc, htail, takeValue_bracket fuel hne, hskip, htake, Taken.as]
  | @Value.emptyObj opening closing hopening hclosing =>
    obtain ⟨tail, htail, hskip⟩ := hopening.skip rfl (closing ++ rest)
    obtain ⟨left, hleft, hrest⟩ := hclosing.skip rfl rest
    exact ⟨left, by rw [List.append_assoc, htail, takeValue_braces fuel (hskip.trans hleft)], hrest⟩
  | @Value.obj opening cs closing written members hopening hpairs hclosing hkept =>
    rw [weight_append, weight_append, hopening.weight rfl, hclosing.weight rfl] at hfuel
    obtain ⟨tail, htail, hskip⟩ := hopening.skip rfl (cs ++ (closing ++ rest))
    obtain ⟨left, htake, hleft⟩ := hpairs.take hclosing rest fuel (by omega)
    have hne : (skipBlanks tail).head? ≠ some '\x7d' := by
      rw [hskip, head?_of_takeMembers (show takeMembers fuel _ = taken none written left from htake)]
      decide
    refine ⟨left, ?_, hleft⟩
    rw [List.append_assoc, List.append_assoc, htail, takeValue_brace fuel hne, hskip, htake, Taken.as,
      hkept.eq_ofPairs]
termination_by fuel

/-- Items that are derived are taken, up to and with the closing bracket. -/
theorem Items.take {cs closing : List Char} {items : List Json} (h : Items cs items)
    (hclosing : Structural ']' closing) (rest : List Char) (fuel : Nat) (hfuel : 2 * weight cs + 2 ≤ fuel) :
    ∃ left, takeItems fuel (skipBlanks (cs ++ (closing ++ rest))) = .ok (items, left) ∧
      skipBlanks left = skipBlanks rest := by
  obtain ⟨fuel, rfl⟩ : ∃ n, fuel = n + 1 := ⟨fuel - 1, by omega⟩
  rw [takeItems_succ]
  match h with
  | .one hv =>
    obtain ⟨left, htake, hleft⟩ := hv.take (hclosing.delimited (by simp) rest) fuel (by omega)
    exact exists_series_closing htake hleft hclosing rfl
  | @Items.more cs comma others v items hv hcomma hothers =>
    rw [weight_append, weight_append, hcomma.weight rfl] at hfuel
    obtain ⟨left, htake, hleft⟩ :=
      hv.take (hcomma.delimited (by simp) (others ++ (closing ++ rest))) fuel (by omega)
    obtain ⟨behind, hnext, hbehind⟩ := hothers.take hclosing rest fuel (by omega)
    refine ⟨behind, ?_, hbehind⟩
    rw [List.append_assoc, List.append_assoc, series_structural_comma htake hleft hcomma (by decide), hnext, Taken.as]
termination_by fuel

/-- Members that are derived are taken, up to and with the closing brace. -/
theorem Pairs.take {cs closing : List Char} {written : Members} (h : Pairs cs written)
    (hclosing : Structural '\x7d' closing) (rest : List Char) (fuel : Nat) (hfuel : 2 * weight cs + 2 ≤ fuel) :
    ∃ left, takeMembers fuel (skipBlanks (cs ++ (closing ++ rest))) = .ok (written, left) ∧
      skipBlanks left = skipBlanks rest := by
  obtain ⟨fuel, rfl⟩ : ∃ n, fuel = n + 1 := ⟨fuel - 1, by omega⟩
  rw [takeMembers_succ]
  match h with
  | @Pairs.one name colon cs key v hname hcolon hv =>
    rw [weight_append, weight_append, hcolon.weight rfl] at hfuel
    obtain ⟨left, htake, hleft⟩ := hv.take (hclosing.delimited (by simp) rest) fuel (by omega)
    have hmember := hname.takeMember hcolon fuel (cs ++ (closing ++ rest))
    rw [htake, Taken.as] at hmember
    rw [List.append_assoc, List.append_assoc]
    exact exists_series_closing hmember hleft hclosing rfl
  | @Pairs.more name colon cs comma others key v written hname hcolon hv hcomma hothers =>
    rw [weight_append, weight_append, weight_append, weight_append, hcolon.weight rfl, hcomma.weight rfl] at hfuel
    obtain ⟨left, htake, hleft⟩ :=
      hv.take (hcomma.delimited (by simp) (others ++ (closing ++ rest))) fuel (by omega)
    obtain ⟨behind, hnext, hbehind⟩ := hothers.take hclosing rest fuel (by omega)
    have hmember := hname.takeMember hcolon fuel (cs ++ (comma ++ (others ++ (closing ++ rest))))
    rw [htake, Taken.as] at hmember
    refine ⟨behind, ?_, hbehind⟩
    rw [List.append_assoc, List.append_assoc, List.append_assoc, List.append_assoc,
      series_structural_comma hmember hleft hcomma (by decide), hnext, Taken.as]
termination_by fuel

end

end Redeclare.Grammar
