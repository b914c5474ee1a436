import DecodeTrie.Proofs.Build.Loops

/-!
# What a clash has seen

A clash is raised at a position of the trie, by what the position holds, and no step that fails
writes into the trie afterwards. So the trie that a failing insertion leaves behind still shows what
the clash is about: `Clash.Seen`.

The rules are those of the steps. A computation of which every failing step is honest is honest
(`Honest.bind`, `Honest.forM`), and the two steps that raise a clash, `Trie.ensureTable` and
`Trie.putLeaf`, report what they see. Nothing is asked of the trie for that.
-/

namespace DecodeTrie

/-- A position of the trie shows what a clash is about: the number that stands there, or the table,
with the first number below it. Where there is none, the clash names the number that was to be
placed. -/
def Clash.Seen (t : Trie) (number : Nat) : Clash → Prop
  | .occupied other => ∃ p, t.slot p = .leaf other
  | .shape _ .leaf other => ∃ p, t.slot p = .leaf other
  | .shape wanted (.table k) other => wanted ≠ .table k ∧ ∃ p x, t.slot p = .node x ∧
      t.kind x = k ∧ other = (t.firstLeaf x).getD number

/-- Whenever a computation fails, the trie that it leaves behind shows what the clash is about. -/
def Honest {σ α : Type} (trie : σ → Trie) (number : Nat) (f : EStateM Clash σ α) : Prop :=
  ∀ s e s', f s = .error e s' → e.Seen (trie s') number

namespace Honest

variable {σ α β : Type} {trie : σ → Trie} {number : Nat}

theorem pure (a : α) : Honest trie number (pure a : EStateM Clash σ α) := by
  intro s e s' h
  cases h

theorem bind {f : EStateM Clash σ α} {g : α → EStateM Clash σ β} (hf : Honest trie number f)
    (hg : ∀ a, Honest trie number (g a)) : Honest trie number (f >>= g) := by
  intro s e s' h
  simp only [Bind.bind, EStateM.bind] at h
  split at h
  · exact hg _ _ _ _ h
  · next hfs =>
    cases h
    exact hf _ _ _ hfs

theorem forM {f : α → EStateM Clash σ PUnit} (hf : ∀ a, Honest trie number (f a)) (l : List α) :
    Honest trie number (l.forM f) := by
  induction l with
  | nil => exact Honest.pure _
  | cons a l ih => exact (hf a).bind fun _ ↦ ih

end Honest

/-! ## Steps on the trie -/

namespace Trie

variable {number : Nat}

theorem honest_ensureTable (kind : NodeKind) (p : Position) :
    Honest id number (ensureTable number kind p) := by
  intro t e t' h
  rw [ensureTable] at h
  split at h
  · cases h
  · next other hs =>
    cases h
    exact ⟨p, hs⟩
  · next x hs =>
    dsimp only at h
    split at h
    · cases h
    · next hk =>
      cases h
      exact ⟨fun he ↦ hk (Shape.table.inj he).symm, p, x, hs, rfl, rfl⟩

theorem honest_putLeaf (p : Position) : Honest id number (putLeaf number p) := by
  intro t e t' h
  rw [putLeaf] at h
  split at h
  · cases h
  · next other hs =>
    cases h
    exact ⟨p, hs⟩
  · next x hs =>
    cases h
    exact ⟨Shape.noConfusion, p, x, hs, rfl, rfl⟩

theorem honest_follow (p : Position) (steps : List Step) :
    Honest id number (follow number p steps) := by
  induction steps generalizing p with
  | nil => exact Honest.pure p
  | cons s steps ih => exact (honest_ensureTable s.kind p).bind fun x ↦ ih ⟨x, s.slot⟩

theorem honest_reach (steps : List Step) : Honest id number (reach number steps) := by
  cases steps with
  | nil => exact Honest.pure _
  | cons s steps => exact honest_follow _ steps

theorem honest_place (p : Position) (steps : List Step) : Honest id number (place number p steps) :=
  (honest_follow p steps).bind fun q ↦ honest_putLeaf q

end Trie

/-! ## Steps on a build -/

namespace Build

variable {number owner : Nat}

theorem honest_onTrie {α : Type} {step : EStateM Clash Trie α} (h : Honest id number step) :
    Honest Build.trie number (onTrie step) := by
  intro b e b' herr
  simp only [onTrie] at herr
  split at herr
  · cases herr
  · next hstep =>
    cases herr
    exact h _ _ _ hstep

theorem honest_place (p : Position) (steps : List Step) :
    Honest Build.trie number (place number owner p steps) := by
  intro b e b' herr
  simp only [place] at herr
  split at herr
  · cases herr
  · next hplace =>
    cases herr
    exact Trie.honest_place p steps _ _ _ hplace

theorem honest_placeOneMode (x : NodeId) (reg : Fin 8) (m : Nat) (tail : List Step) :
    Honest Build.trie number (placeOneMode number owner x reg m tail) := by
  have hplace : Honest Build.trie number (place number owner (Trie.cell x reg m) tail) :=
    honest_place _ _
  exact fun b ↦ hplace ⟨b.trie.detach x reg m, b.ranges⟩

theorem honest_placeOrShare (x : NodeId) (reg : Fin 8) (tail : List Step) (column : List Slot)
    (m : Nat) : Honest Build.trie number (placeOrShare number owner x reg tail column m) := by
  rw [placeOrShare]
  split
  · -- Sharing the child of a twin cannot fail.
    intro b e b' herr
    cases herr
  · exact honest_place _ _

theorem honest_placeEveryMode (x : NodeId) (reg : Fin 8) (tail : List Step) :
    Honest Build.trie number (placeEveryMode number owner x reg tail) := by
  intro b e b' herr
  exact Honest.forM (honest_placeOrShare x reg tail (b.trie.columnSlots x reg)) (List.range 4) b e
    b' herr

/-- **Filling a site** reports what it sees. -/
theorem honest_fill (s : Site) : Honest Build.trie number (fill number owner s) := by
  refine (honest_onTrie (Trie.honest_reach s.stem)).bind fun p ↦ ?_
  cases s.column with
  | none => exact honest_place p s.tail
  | some column =>
    refine (honest_onTrie (Trie.honest_ensureTable .modrm p)).bind fun x ↦ ?_
    cases column.mode with
    | some m => exact honest_placeOneMode x column.reg m s.tail
    | none => exact honest_placeEveryMode x column.reg s.tail

/-- **An insertion that fails with a clash** leaves a trie behind that shows what it is about. -/
theorem seen_of_insertEncoding {c : Catalog} {steering : Steering} {e : Encoding} {d : Descriptor}
    {b b' : Build} {err : CompileError} (herr : insertEncoding c steering e d b = .error err b') :
    (∃ insn opcode, err = .registerBaseOverflow insn opcode) ∨
      ∃ clash : Clash, err = clash.report c e ∧ clash.Seen b'.trie e.number := by
  rw [insertEncoding] at herr
  split at herr
  · cases herr
    exact .inl ⟨_, _, rfl⟩
  · split at herr
    · cases herr
    · next clash _ hloop =>
      cases herr
      exact .inr ⟨clash, rfl, Honest.forM honest_fill _ _ _ _ hloop⟩

end Build

end DecodeTrie
