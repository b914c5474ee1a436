import DecodeTrie.Proofs.Trie.Path
import DecodeTrie.Trie.Placement

/-!
# Claims

An encoding claims places in the trie. A claim is a route, the tables from the root on with the slot
taken in each, together with the number that stands at its end. It wants something to stand at every
path along its route, and wants nothing at other paths.

Whether two claims can stand in one trie is a question about their two routes: `Route.clash`
follows both until they part, and gives the clash of the newer one where they do not part but ask
for different things. `Free` and `Obstructed` put the same question to what stands in a trie, and
the lemmas at the end join both: what obstructs a route in a trie is a clash with one of the claims
recorded there (`exists_clash_of_obstructed`), and a free route clashes with none of them
(`clash_eq_none_of_free`). `Clear` and `FirstClash` say this of a list of routes that are completed
one after the other.
-/

namespace DecodeTrie

/-! ## Routes -/

namespace Route

/-- The path of a route. -/
def slots (r : List Step) : List Nat := r.map Step.slot

/-- The tables that a route wants on its way. -/
def tables : List Step → List Nat → Option Content
  | [], _ => none
  | s :: _, [] => some (.table s.kind)
  | s :: r, i :: path => if i = s.slot then tables r path else none

/-- What a route with a number at its end wants at a path. -/
def wants (number : Nat) : List Step → List Nat → Option Content
  | [], [] => some (.leaf number)
  | [], _ :: _ => none
  | s :: _, [] => some (.table s.kind)
  | s :: r, i :: path => if i = s.slot then wants number r path else none

/-- The clash of a route with an earlier one, at whose end the number stands: followed slot by
slot, the routes do not part, and come to where they want different things, or both a leaf. -/
def clash (number : Nat) : List Step → List Step → Option Clash
  | [], [] => some (.occupied number)
  | [], s' :: _ => some (.shape .leaf (.table s'.kind) number)
  | s :: _, [] => some (.shape (.table s.kind) .leaf number)
  | s :: r, s' :: r' =>
    if s.kind = s'.kind then
      if s.slot = s'.slot then clash number r r' else none
    else some (.shape (.table s.kind) (.table s'.kind) number)

@[simp] theorem slots_nil : slots [] = [] := rfl

@[simp] theorem slots_cons (s : Step) (r : List Step) : slots (s :: r) = s.slot :: slots r := rfl

@[simp] theorem slots_append (a b : List Step) : slots (a ++ b) = slots a ++ slots b :=
  List.map_append

@[simp] theorem tables_nil (path : List Nat) : tables [] path = none := by
  cases path <;> rfl

@[simp] theorem tables_cons_nil (s : Step) (r : List Step) :
    tables (s :: r) [] = some (.table s.kind) := rfl

@[simp] theorem tables_cons_cons (s : Step) (r : List Step) (i : Nat) (path : List Nat) :
    tables (s :: r) (i :: path) = if i = s.slot then tables r path else none := rfl

@[simp] theorem wants_cons_nil (n : Nat) (s : Step) (r : List Step) :
    wants n (s :: r) [] = some (.table s.kind) := rfl

@[simp] theorem wants_cons_cons (n : Nat) (s : Step) (r : List Step) (i : Nat) (path : List Nat) :
    wants n (s :: r) (i :: path) = if i = s.slot then wants n r path else none := rfl

@[simp] theorem wants_nil_eq_some_iff {n : Nat} {path : List Nat} {v : Content} :
    wants n [] path = some v ↔ path = [] ∧ v = .leaf n := by
  cases path with
  | nil => simp [wants, eq_comm]
  | cons i path => simp [wants]

/-- A route in two parts wants what its parts want, the second behind the path of the first. -/
theorem wants_append_eq_some_iff {n : Nat} {a b : List Step} {path : List Nat} {v : Content} :
    wants n (a ++ b) path = some v ↔
      tables a path = some v ∨ ∃ q, path = slots a ++ q ∧ wants n b q = some v := by
  induction a generalizing path with
  | nil => simp
  | cons s a ih =>
    cases path with
    | nil => simp
    | cons i path =>
      rw [List.cons_append, wants_cons_cons, tables_cons_cons, slots_cons]
      by_cases hi : i = s.slot
      · subst hi
        simp [ih]
      · simp [hi]

theorem tables_append_eq_some_iff {a b : List Step} {path : List Nat} {v : Content} :
    tables (a ++ b) path = some v ↔
      tables a path = some v ∨ ∃ q, path = slots a ++ q ∧ tables b q = some v := by
  induction a generalizing path with
  | nil => simp
  | cons s a ih =>
    cases path with
    | nil => simp
    | cons i path =>
      rw [List.cons_append, tables_cons_cons, tables_cons_cons, slots_cons]
      by_cases hi : i = s.slot
      · subst hi
        simp [ih]
      · simp [hi]

/-- The number stands at the end of the route only. -/
theorem wants_eq_leaf_iff {n m : Nat} {r : List Step} {path : List Nat} :
    wants n r path = some (.leaf m) ↔ path = slots r ∧ m = n := by
  induction r generalizing path with
  | nil => simp
  | cons s r ih =>
    cases path with
    | nil => simp
    | cons i path =>
      rw [wants_cons_cons, slots_cons]
      by_cases hi : i = s.slot
      · simp [hi, ih]
      · simp [hi]

theorem wants_slots (n : Nat) (r : List Step) : wants n r (slots r) = some (.leaf n) :=
  wants_eq_leaf_iff.mpr ⟨rfl, rfl⟩

theorem exists_wants_nil (n : Nat) (r : List Step) : ∃ v, wants n r [] = some v := by
  cases r with
  | nil => exact ⟨_, rfl⟩
  | cons s r => exact ⟨_, rfl⟩

/-! ## Clashes of two routes -/

end Route

/-- The number that a clash names. -/
def Clash.other : Clash → Nat
  | .occupied other => other
  | .shape _ _ other => other

namespace Route

/-- A clash names the number at the end of the earlier route. -/
theorem other_of_clash {n : Nat} {r r' : List Step} {c : Clash} (h : clash n r r' = some c) :
    c.other = n := by
  fun_induction clash n r r' with
  | case1 => cases h; rfl
  | case2 => cases h; rfl
  | case3 => cases h; rfl
  | case4 s r s' r' hk hs ih => exact ih h
  | case5 => cases h
  | case6 => cases h; rfl

/-- That two routes do not clash depends neither on which is earlier nor on the number. -/
theorem clash_eq_none_comm {n m : Nat} {r r' : List Step} (h : clash n r r' = none) :
    clash m r' r = none := by
  fun_induction clash n r r' with
  | case1 => cases h
  | case2 => cases h
  | case3 => cases h
  | case4 s r s' r' hk hs ih => rw [clash, if_pos hk.symm, if_pos hs.symm, ih h]
  | case5 s r s' r' hk hs => rw [clash, if_pos hk.symm, if_neg (Ne.symm hs)]
  | case6 => cases h

/-- Routes through tables of the same kinds do not clash, unless they are equal. -/
theorem clash_eq_none_of_kinds {n : Nat} {r r' : List Step}
    (hk : r.map Step.kind = r'.map Step.kind) (hne : r ≠ r') : clash n r r' = none := by
  induction r generalizing r' with
  | nil =>
    cases r' with
    | nil => exact absurd rfl hne
    | cons s' r' => simp at hk
  | cons s r ih =>
    cases r' with
    | nil => simp at hk
    | cons s' r' =>
      obtain ⟨hs, hk⟩ := List.cons.inj hk
      rw [clash, if_pos hs]
      by_cases hslot : s.slot = s'.slot
      · rw [if_pos hslot]
        refine ih hk fun h ↦ hne ?_
        cases s
        cases s'
        simp_all
      · rw [if_neg hslot]

/-- A route clashes in one way only with all routes that stand together at the same number. -/
theorem clash_unique {n m : Nat} {r a b : List Step} {c c' : Clash} (ha : clash n r a = some c)
    (hb : clash n r b = some c') (hab : a = b ∨ clash m a b = none) : c = c' := by
  rcases hab with rfl | hab
  · rw [ha] at hb
    exact Option.some.inj hb
  · induction r generalizing a b with
    | nil =>
      -- Of two routes that stand together, one ends here only if it is the only one.
      cases a with
      | nil => cases b <;> simp_all [clash]
      | cons x a =>
        cases b with
        | nil => simp [clash] at hab
        | cons y b =>
          simp only [clash] at ha hb hab
          split at hab
          · next hxy =>
            rw [hxy] at ha
            rw [← Option.some.inj ha, ← Option.some.inj hb]
          · cases hab
    | cons s r ih =>
      cases a with
      | nil => cases b <;> simp [clash] at hab
      | cons x a =>
        cases b with
        | nil => simp [clash] at hab
        | cons y b =>
          rw [clash] at ha hb hab
          split at hab
          · next hxy =>
            rw [hxy] at ha
            by_cases hk : s.kind = y.kind
            · rw [if_pos hk] at ha hb
              split at ha
              · next hx =>
                split at hb
                · next hy =>
                  rw [if_pos (hx.symm.trans hy)] at hab
                  exact ih ha hb hab
                · cases hb
              · cases ha
            · rw [if_neg hk] at ha hb
              rw [← Option.some.inj ha, ← Option.some.inj hb]
          · cases hab

end Route

/-! ## Routes and what stands in a trie -/

/-- Nothing keeps a route from being completed at a path: what stands there and further on is what
the route wants, and then nothing. -/
def Free (view : List Nat → Option Content) : List Nat → List Step → Prop
  | path, [] => view path = none
  | path, s :: r =>
    view path = none ∨ view path = some (.table s.kind) ∧ Free view (path ++ [s.slot]) r

/-- Something keeps a route from being completed at a path, and this is the clash. -/
inductive Obstructed (view : List Nat → Option Content) : List Nat → List Step → Clash → Prop
  /-- The leaf is wanted where one stands. -/
  | occupied {path : List Nat} {m : Nat} (h : view path = some (.leaf m)) :
    Obstructed view path [] (.occupied m)
  /-- The leaf is wanted where a table stands, with a number below it. -/
  | atTable {path q : List Nat} {k : NodeKind} {m : Nat} (h : view path = some (.table k))
    (hm : view (path ++ q) = some (.leaf m)) :
    Obstructed view path [] (.shape .leaf (.table k) m)
  /-- A table is wanted where a leaf stands. -/
  | atLeaf {path : List Nat} {s : Step} {r : List Step} {m : Nat}
    (h : view path = some (.leaf m)) :
    Obstructed view path (s :: r) (.shape (.table s.kind) .leaf m)
  /-- A table is wanted where one of another kind stands, with a number below it. -/
  | otherKind {path q : List Nat} {s : Step} {r : List Step} {k : NodeKind} {m : Nat}
    (h : view path = some (.table k)) (hk : k ≠ s.kind)
    (hm : view (path ++ q) = some (.leaf m)) :
    Obstructed view path (s :: r) (.shape (.table s.kind) (.table k) m)
  /-- The obstruction is further on. -/
  | step {path : List Nat} {s : Step} {r : List Step} {c : Clash}
    (h : view path = some (.table s.kind)) (hr : Obstructed view (path ++ [s.slot]) r c) :
    Obstructed view path (s :: r) c

theorem Free.append {view : List Nat → Option Content} {path : List Nat} {a b : List Step}
    (ha : ∀ q v, Route.tables a q = some v → view (path ++ q) = some v)
    (hb : Free view (path ++ Route.slots a) b) : Free view path (a ++ b) := by
  induction a generalizing path with
  | nil => simpa using hb
  | cons s a ih =>
    refine .inr ⟨by simpa using ha [] _ rfl, ih ?_ ?_⟩
    · intro q v hq
      simpa using ha (s.slot :: q) v (by simpa using hq)
    · simpa using hb

theorem Obstructed.append {view : List Nat → Option Content} {path : List Nat} {a b : List Step}
    {c : Clash} (ha : ∀ q v, Route.tables a q = some v → view (path ++ q) = some v)
    (hb : Obstructed view (path ++ Route.slots a) b c) : Obstructed view path (a ++ b) c := by
  induction a generalizing path with
  | nil => simpa using hb
  | cons s a ih =>
    refine .step (by simpa using ha [] _ rfl) (ih ?_ ?_)
    · intro q v hq
      simpa using ha (s.slot :: q) v (by simpa using hq)
    · simpa using hb

/-- The path does not end before something stands in the way. -/
theorem Obstructed.view_ne_none {view : List Nat → Option Content} {path : List Nat}
    {r : List Step} {c : Clash} (h : Obstructed view path r c) : view path ≠ none := by
  cases h <;> simp_all

/-- Obstruction looks at paths that start with the given one only. -/
theorem Obstructed.congr {view view' : List Nat → Option Content} {path : List Nat} {r : List Step}
    {c : Clash} (h : Obstructed view path r c) (hv : ∀ q, view (path ++ q) = view' (path ++ q)) :
    Obstructed view' path r c := by
  induction h with
  | occupied h => exact .occupied (by simpa [h] using (hv []).symm)
  | atTable h hm => exact .atTable (by simpa [h] using (hv []).symm) (by rw [← hv, hm])
  | atLeaf h => exact .atLeaf (by simpa [h] using (hv []).symm)
  | otherKind h hk hm =>
    exact .otherKind (by simpa [h] using (hv []).symm) hk (by rw [← hv, hm])
  | step h _ ih =>
    exact .step (by simpa [h] using (hv []).symm) (ih fun q ↦ by
      rw [List.append_assoc, hv])

/-- Freedom looks at paths that start with the given one only, and may be carried to another
path. -/
theorem Free.translate {view view' : List Nat → Option Content} {path path' : List Nat}
    {r : List Step} (h : Free view path r) (hv : ∀ q, view (path ++ q) = view' (path' ++ q)) :
    Free view' path' r := by
  induction r generalizing path path' with
  | nil =>
    have hn := hv []
    rw [List.append_nil, List.append_nil] at hn
    exact hn.symm.trans h
  | cons s r ih =>
    have hn := hv []
    rw [List.append_nil, List.append_nil] at hn
    rcases h with h | ⟨h, hr⟩
    · exact .inl (hn.symm.trans h)
    · exact .inr ⟨hn.symm.trans h, ih hr fun q ↦ by rw [List.append_assoc, hv, List.append_assoc]⟩

theorem Free.congr {view view' : List Nat → Option Content} {path : List Nat} {r : List Step}
    (h : Free view path r) (hv : ∀ q, view (path ++ q) = view' (path ++ q)) :
    Free view' path r :=
  h.translate hv

/-- What is free stays free where less stands. -/
theorem Free.anti {view view' : List Nat → Option Content} {path : List Nat} {r : List Step}
    (h : Free view' path r) (hv : ∀ {p v}, view p = some v → view' p = some v) :
    Free view path r := by
  induction r generalizing path with
  | nil =>
    cases hp : view path with
    | none => exact hp
    | some v => rw [Free, hv hp] at h; cases h
  | cons s r ih =>
    cases hp : view path with
    | none => exact .inl hp
    | some v =>
      have hp' := hv hp
      rcases h with h | ⟨h, hr⟩
      · rw [h] at hp'; cases hp'
      · rw [h] at hp'; cases hp'; exact .inr ⟨hp, ih hr⟩

/-- **What obstructs a route** is a clash with any route that agrees with the trie and ends at the
number that is blamed. -/
theorem Obstructed.exists_clash {view : List Nat → Option Content} {path : List Nat}
    {r : List Step} {c : Clash} (h : Obstructed view path r c) :
    ∃ q n, view (path ++ q) = some (.leaf n) ∧ ∀ old, Route.slots old = q →
      (∀ p v, Route.wants n old p = some v → view (path ++ p) = some v) →
        Route.clash n r old = some c := by
  induction h with
  | @occupied path m h =>
    refine ⟨[], m, by rwa [List.append_nil], fun old hold _ ↦ ?_⟩
    obtain rfl : old = [] := List.map_eq_nil_iff.mp hold
    rfl
  | @atTable path q k m h hm =>
    refine ⟨q, m, hm, fun old hold hv ↦ ?_⟩
    cases old with
    | nil =>
      -- A route that ends here would have its number where the table stands.
      rw [← hold, Route.slots_nil, List.append_nil, h] at hm
      cases hm
    | cons s' old =>
      have hk := hv [] _ (Route.wants_cons_nil ..)
      rw [List.append_nil, h] at hk
      cases hk
      rfl
  | @atLeaf path s r m h =>
    refine ⟨[], m, by rwa [List.append_nil], fun old hold _ ↦ ?_⟩
    obtain rfl : old = [] := List.map_eq_nil_iff.mp hold
    rfl
  | @otherKind path q s r k m h hk hm =>
    refine ⟨q, m, hm, fun old hold hv ↦ ?_⟩
    cases old with
    | nil =>
      rw [← hold, Route.slots_nil, List.append_nil, h] at hm
      cases hm
    | cons s' old =>
      have hk' := hv [] _ (Route.wants_cons_nil ..)
      rw [List.append_nil, h] at hk'
      cases hk'
      rw [Route.clash, if_neg (Ne.symm hk)]
  | @step path s r c h _ ih =>
    obtain ⟨q, n, hn, hclash⟩ := ih
    refine ⟨s.slot :: q, n, by simpa using hn, fun old hold hv ↦ ?_⟩
    cases old with
    | nil => cases hold
    | cons s' old =>
      obtain ⟨hs, hold⟩ := List.cons.inj hold
      have hk := hv [] _ (Route.wants_cons_nil ..)
      rw [List.append_nil, h] at hk
      have hkind : s.kind = s'.kind := Content.table.inj (Option.some.inj hk)
      -- Both routes go on through the same slot of the same table, and so does the question.
      rw [Route.clash, if_pos hkind, if_pos (Eq.symm hs)]
      refine hclash old hold fun p v hp ↦ ?_
      have := hv (s.slot :: p) v (by rw [Route.wants_cons_cons, if_pos (Eq.symm hs), hp])
      simpa using this

/-- A free route does not clash with a route that agrees with the trie. -/
theorem Free.clash_eq_none {view : List Nat → Option Content} {path : List Nat} {r old : List Step}
    {n : Nat} (h : Free view path r)
    (hv : ∀ p v, Route.wants n old p = some v → view (path ++ p) = some v) :
    Route.clash n r old = none := by
  induction r generalizing path old with
  | nil =>
    -- The old route wants something here, where nothing stands.
    obtain ⟨v, hs⟩ := Route.exists_wants_nil n old
    have := hv [] v hs
    rw [List.append_nil, show view path = none from h] at this
    cases this
  | cons s r ih =>
    obtain ⟨v, hs⟩ := Route.exists_wants_nil n old
    have hp := hv [] v hs
    rw [List.append_nil] at hp
    rcases h with h | ⟨h, hr⟩
    · rw [h] at hp
      cases hp
    · rw [h] at hp
      cases hp
      cases old with
      | nil => cases hs
      | cons s' old =>
        have hk : s.kind = s'.kind := by simpa using hs.symm
        rw [Route.clash, if_pos hk]
        split
        · next hslot =>
          refine ih hr fun p v hp ↦ ?_
          have := hv (s.slot :: p) v (by rw [Route.wants_cons_cons, if_pos hslot, hp])
          simpa using this
        · rfl

/-! ## Routes that agree with what stands in a trie -/

/-- Two routes that agree with a trie are equal, or clash nowhere. -/
theorem Route.eq_or_clash_eq_none {view : List Nat → Option Content} (path : List Nat)
    {r r' : List Step} {n n' : Nat}
    (h : ∀ p v, Route.wants n r p = some v → view (path ++ p) = some v)
    (h' : ∀ p v, Route.wants n' r' p = some v → view (path ++ p) = some v) :
    r = r' ∨ Route.clash n' r r' = none := by
  induction r generalizing r' path with
  | nil =>
    have hleaf := h [] _ rfl
    cases r' with
    | nil => exact .inl rfl
    | cons s' r' =>
      rw [h' [] _ rfl] at hleaf
      cases hleaf
  | cons s r ih =>
    have hs := h [] _ rfl
    cases r' with
    | nil =>
      rw [h' [] _ rfl] at hs
      cases hs
    | cons s' r' =>
      rw [h' [] _ rfl] at hs
      have hk : s.kind = s'.kind := (Content.table.inj (Option.some.inj hs)).symm
      rw [Route.clash, if_pos hk]
      by_cases hslot : s.slot = s'.slot
      · rw [if_pos hslot]
        have hss : s = s' := by
          obtain ⟨k, i⟩ := s
          obtain ⟨k', i'⟩ := s'
          exact (Step.mk.injEq k i k' i').mpr ⟨hk, hslot⟩
        rw [← hss] at h' ⊢
        refine (ih (path ++ [s.slot]) ?_ ?_).imp (congrArg _) id
        · intro p v hp
          rw [List.append_assoc]
          exact h (s.slot :: p) v (by rw [Route.wants_cons_cons, if_pos rfl, hp])
        · intro p v hp
          rw [List.append_assoc]
          exact h' (s.slot :: p) v (by rw [Route.wants_cons_cons, if_pos rfl, hp])
      · rw [if_neg hslot]
        exact .inr rfl

/-- What a route wants stands on the way to its number. -/
theorem Route.exists_slots_of_wants {n : Nat} {r : List Step} {path : List Nat} {v : Content}
    (h : Route.wants n r path = some v) : ∃ q, Route.slots r = path ++ q := by
  induction r generalizing path with
  | nil =>
    obtain ⟨rfl, -⟩ := Route.wants_nil_eq_some_iff.mp h
    exact ⟨[], rfl⟩
  | cons s r ih =>
    cases path with
    | nil => exact ⟨_, rfl⟩
    | cons i path =>
      rw [Route.wants_cons_cons] at h
      split at h
      · next hi =>
        obtain ⟨q, hq⟩ := ih h
        exact ⟨q, by rw [Route.slots_cons, hq, hi]; rfl⟩
      · cases h

/-! ## Claims -/

/-- A route with a number at its end. -/
structure Claim where
  /-- The number. -/
  number : Nat
  /-- The route. -/
  route : List Step
deriving DecidableEq, Repr

namespace Claim

/-- What a claim wants at a path. -/
def wants (c : Claim) (path : List Nat) : Option Content := Route.wants c.number c.route path

end Claim

/-- What stands in a trie agrees with claims: what they say stands there, and numbers stand only
where one of the claims wants so. -/
structure Agrees (view : List Nat → Option Content) (claims : List Claim) : Prop where
  /-- What a claim wants stands there. -/
  view_of_wants : ∀ {c : Claim} {path : List Nat} {v : Content}, c ∈ claims →
    c.wants path = some v → view path = some v
  /-- A number stands at the end of a claim. -/
  exists_claim : ∀ {path : List Nat} {n : Nat}, view path = some (.leaf n) →
    ∃ c ∈ claims, c.number = n ∧ Route.slots c.route = path

namespace Agrees

variable {view : List Nat → Option Content} {claims : List Claim} (h : Agrees view claims)

include h

/-- What obstructs a route from the root is a clash with one of the claims. -/
theorem exists_clash_of_obstructed {r : List Step} {c : Clash} (hr : Obstructed view [] r c) :
    ∃ a ∈ claims, Route.clash a.number r a.route = some c := by
  obtain ⟨q, n, hq, hclash⟩ := hr.exists_clash
  rw [List.nil_append] at hq
  obtain ⟨a, ha, rfl, hslots⟩ := h.exists_claim hq
  refine ⟨a, ha, hclash a.route hslots fun p v hp ↦ ?_⟩
  rw [List.nil_append]
  exact h.view_of_wants ha hp

/-- A route that is free from the root on clashes with none of the claims. -/
theorem clash_eq_none_of_free {r : List Step} (hr : Free view [] r) {a : Claim}
    (ha : a ∈ claims) : Route.clash a.number r a.route = none := by
  refine hr.clash_eq_none fun p v hp ↦ ?_
  rw [List.nil_append]
  exact h.view_of_wants ha hp

end Agrees

/-! ## Routes against claims -/

/-- No route clashes with a claim. -/
def Clear (claims : List Claim) (routes : List (List Step)) : Prop :=
  ∀ r ∈ routes, ∀ x ∈ claims, Route.clash x.number r x.route = none

/-- The first clash of some routes with claims. -/
def FirstClash (claims : List Claim) (routes : List (List Step)) (e : Clash) : Prop :=
  ∃ pre r post, routes = pre ++ r :: post ∧ Clear claims pre ∧
    ∃ x ∈ claims, Route.clash x.number r x.route = some e

theorem Clear.append {claims : List Claim} {a b : List (List Step)} (ha : Clear claims a)
    (hb : Clear claims b) : Clear claims (a ++ b) := by
  intro r hr
  rcases List.mem_append.mp hr with hr | hr
  · exact ha r hr
  · exact hb r hr

theorem clear_append_iff {a b : List Claim} {routes : List (List Step)} :
    Clear (a ++ b) routes ↔ Clear a routes ∧ Clear b routes := by
  simp only [Clear, List.mem_append, or_imp, forall_and]

theorem FirstClash.not_clear {claims : List Claim} {routes : List (List Step)} {e : Clash}
    (h : FirstClash claims routes e) : ¬ Clear claims routes := by
  obtain ⟨pre, r, post, rfl, -, x, hx, he⟩ := h
  intro hclear
  rw [hclear r (by simp) x hx] at he
  cases he

/-- Free routes are clear of the claims that stand in a trie. -/
theorem Agrees.clear_of_free {view : List Nat → Option Content} {claims : List Claim}
    (h : Agrees view claims) {routes : List (List Step)} (hfree : ∀ r ∈ routes, Free view [] r) :
    Clear claims routes :=
  fun r hr _ hx ↦ h.clash_eq_none_of_free (hfree r hr) hx

end DecodeTrie
