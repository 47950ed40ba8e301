/-!
# Byte patterns

A pattern describes byte strings.  A place of a text is its start or the point behind one of its
bytes, and a list of marks, one for each place in order, says which places are reached.
`Pattern.reach` takes the marks of where a pattern may begin to the marks of where it may end, in
one sweep over the text for each part of the pattern; `Pattern.accepts` asks whether the end of
the text is reached from its start.

`Pattern.Describes` says the same as a relation, and `accepts_iff` ties the two.
-/

namespace Codebase.Glob

/-- A set of bytes: the ranges, or everything outside them. -/
structure ByteSet where
  negated : Bool
  ranges : List (UInt8 × UInt8)
  deriving DecidableEq, Repr

def ByteSet.contains (set : ByteSet) (b : UInt8) : Bool :=
  set.negated != set.ranges.any fun r => r.1 ≤ b && b ≤ r.2

inductive Pattern where
  | empty
  | one (set : ByteSet)
  | many (set : ByteSet)
  | seq (first second : Pattern)
  | either (first second : Pattern)
  deriving DecidableEq, Repr

namespace Pattern

/-- The byte strings of a pattern. -/
inductive Describes : Pattern → List UInt8 → Prop where
  | empty : Describes .empty []
  | one {set : ByteSet} {b : UInt8} : set.contains b = true → Describes (.one set) [b]
  | many {set : ByteSet} {bs : List UInt8} :
      (∀ b ∈ bs, set.contains b = true) → Describes (.many set) bs
  | seq {p q : Pattern} {bs cs : List UInt8} :
      Describes p bs → Describes q cs → Describes (.seq p q) (bs ++ cs)
  | left {p q : Pattern} {bs : List UInt8} : Describes p bs → Describes (.either p q) bs
  | right {p q : Pattern} {bs : List UInt8} : Describes q bs → Describes (.either p q) bs

/-- The places behind one byte of `set`.  `arrived` says whether the first place is reached from a
place before it. -/
def afterOne (set : ByteSet) (arrived : Bool) : List UInt8 → List Bool → List Bool
  | b :: bs, mark :: marks => arrived :: afterOne set (mark && set.contains b) bs marks
  | _, _ => [arrived]

/-- The places behind any number of bytes of `set`. -/
def afterMany (set : ByteSet) (arrived : Bool) : List UInt8 → List Bool → List Bool
  | b :: bs, mark :: marks =>
    (arrived || mark) :: afterMany set ((arrived || mark) && set.contains b) bs marks
  | _, marks => [arrived || marks.headD false]

/-- The places where the pattern may end when it begins at a marked place.  Behind a part that
ends nowhere nothing is tried. -/
def reach : Pattern → List UInt8 → List Bool → List Bool
  | .empty, _, marks => marks
  | .one set, bs, marks => afterOne set false bs marks
  | .many set, bs, marks => afterMany set false bs marks
  | .seq p q, bs, marks =>
    let middle := p.reach bs marks
    if middle.any id then q.reach bs middle else middle
  | .either p q, bs, marks => List.zipWith or (p.reach bs marks) (q.reach bs marks)

/-- The marks of a text of which only the start is reached. -/
def startOnly (bs : List UInt8) : List Bool := true :: bs.map fun _ => false

/-- The pattern describes the whole text. -/
def accepts (p : Pattern) (bs : List UInt8) : Bool :=
  (p.reach bs (startOnly bs)).getLastD false

/-! ### Marks as a property of what has been read -/

/-- Behind `done`, each mark says whether what has been read up to its place is a `P`. -/
def Marked (P : List UInt8 → Prop) (done : List UInt8) : List UInt8 → List Bool → Prop
  | [], [mark] => mark = true ↔ P done
  | b :: bs, mark :: marks => (mark = true ↔ P done) ∧ Marked P (done ++ [b]) bs marks
  | _, _ => False

/-- A text that is a `P` and then a text of the pattern. -/
def Then (P : List UInt8 → Prop) (p : Pattern) (bs : List UInt8) : Prop :=
  ∃ before inside, bs = before ++ inside ∧ P before ∧ Describes p inside

section Marks

variable {P Q : List UInt8 → Prop} {set : ByteSet} {done bs : List UInt8} {marks : List Bool}

theorem marked_congr (h : ∀ cs, P cs ↔ Q cs) (m : Marked P done bs marks) :
    Marked Q done bs marks := by
  have e : P = Q := funext fun cs => propext (h cs)
  exact e ▸ m

theorem marked_either {others : List Bool} (m : Marked P done bs marks)
    (n : Marked Q done bs others) :
    Marked (fun cs => P cs ∨ Q cs) done bs (List.zipWith or marks others) := by
  induction bs generalizing done marks others with
  | nil =>
    match marks, others, m, n with
    | [x], [y], (m : x = true ↔ P done), (n : y = true ↔ Q done) =>
      show or x y = true ↔ P done ∨ Q done
      rw [Bool.or_eq_true, m, n]
  | cons b bs ih =>
    match marks, others, m, n with
    | x :: xs, y :: ys, m, n =>
      refine ⟨?_, ih m.2 n.2⟩
      show or x y = true ↔ P done ∨ Q done
      rw [Bool.or_eq_true, m.1, n.1]

theorem then_one_append {b : UInt8} :
    Then P (.one set) (done ++ [b]) ↔ P done ∧ set.contains b = true := by
  constructor
  · intro h
    obtain ⟨before, inside, e, hp, hd⟩ := h
    cases hd with
    | @one _ c hc =>
      obtain ⟨e1, e2⟩ := List.append_inj' e rfl
      cases e2
      exact ⟨e1 ▸ hp, hc⟩
  · intro h
    exact ⟨done, [b], rfl, h.1, .one h.2⟩

theorem not_then_one_nil : ¬Then P (.one set) [] := by
  intro h
  obtain ⟨before, inside, e, _, hd⟩ := h
  cases hd
  exact absurd e.symm (by simp)

theorem marked_afterOne {arrived : Bool} (first : arrived = true ↔ Then P (.one set) done)
    (m : Marked P done bs marks) :
    Marked (Then P (.one set)) done bs (afterOne set arrived bs marks) := by
  induction bs generalizing done arrived marks with
  | nil =>
    match marks, m with
    | [_], _ => exact first
  | cons b bs ih =>
    match marks, m with
    | x :: xs, m =>
      refine ⟨first, ih ?_ m.2⟩
      rw [Bool.and_eq_true, m.1, then_one_append]

/-- The text ends in at least one byte of `set` behind a `P`. -/
def ThenSome (P : List UInt8 → Prop) (set : ByteSet) (bs : List UInt8) : Prop :=
  ∃ before b, bs = before ++ [b] ∧ Then P (.many set) before ∧ set.contains b = true

theorem thenSome_append {b : UInt8} :
    ThenSome P set (done ++ [b]) ↔ Then P (.many set) done ∧ set.contains b = true := by
  constructor
  · intro h
    obtain ⟨before, c, e, ht, hc⟩ := h
    obtain ⟨e1, e2⟩ := List.append_inj' e rfl
    cases e2
    exact ⟨e1 ▸ ht, hc⟩
  · intro h
    exact ⟨done, b, rfl, h.1, h.2⟩

theorem then_many_iff : Then P (.many set) bs ↔ ThenSome P set bs ∨ P bs := by
  constructor
  · intro h
    obtain ⟨before, inside, e, hp, hd⟩ := h
    cases hd with
    | many hs =>
      cases List.eq_nil_or_concat inside with
      | inl hi =>
        rw [hi, List.append_nil] at e
        exact Or.inr (e ▸ hp)
      | inr hi =>
        obtain ⟨front, b, hi⟩ := hi
        rw [List.concat_eq_append] at hi
        rw [hi] at e hs
        refine Or.inl ⟨before ++ front, b, by rw [e, List.append_assoc], ?_, hs b (by simp)⟩
        exact ⟨before, front, rfl, hp, .many fun x hx => hs x (by simp [hx])⟩
  · intro h
    cases h with
    | inl h =>
      obtain ⟨_, b, e, ⟨before, front, e2, hp, hd⟩, hb⟩ := h
      cases hd with
      | many hs =>
        refine ⟨before, front ++ [b], by rw [e, e2, List.append_assoc], hp, .many ?_⟩
        intro x hx
        cases List.mem_append.1 hx with
        | inl hx => exact hs x hx
        | inr hx => exact List.mem_singleton.1 hx ▸ hb
    | inr h => exact ⟨bs, [], by rw [List.append_nil], h, .many (by simp)⟩

theorem marked_afterMany {arrived : Bool} (first : arrived = true ↔ ThenSome P set done)
    (m : Marked P done bs marks) :
    Marked (Then P (.many set)) done bs (afterMany set arrived bs marks) := by
  induction bs generalizing done arrived marks with
  | nil =>
    match marks, m with
    | [x], (m : x = true ↔ P done) =>
      show (arrived || x) = true ↔ _
      rw [Bool.or_eq_true, first, m, then_many_iff]
  | cons b bs ih =>
    match marks, m with
    | x :: xs, m =>
      have here : (arrived || x) = true ↔ Then P (.many set) done := by
        rw [Bool.or_eq_true, first, m.1, then_many_iff]
      refine ⟨here, ih ?_ m.2⟩
      rw [Bool.and_eq_true, here, thenSome_append]

/-- Where no place is reached, none is reached later. -/
theorem marked_none (h : ∀ mark ∈ marks, mark = false)
    (later : ∀ cs, Q cs → ∃ before inside, cs = before ++ inside ∧ P before)
    (fresh : ∀ before inside, done = before ++ inside → inside ≠ [] → ¬P before)
    (m : Marked P done bs marks) : Marked Q done bs marks := by
  have nowhere {done : List UInt8} (hp : ¬P done)
      (fresh : ∀ before inside, done = before ++ inside → inside ≠ [] → ¬P before) : ¬Q done := by
    intro hq
    obtain ⟨before, inside, e, hb⟩ := later done hq
    by_cases hi : inside = []
    · exact hp (by rw [e, hi, List.append_nil]; exact hb)
    · exact fresh before inside e hi hb
  induction bs generalizing done marks with
  | nil =>
    match marks, m with
    | [x], (m : x = true ↔ P done) =>
      have hx : x = false := h x (by simp)
      have hp : ¬P done := fun hp => absurd (m.2 hp) (by simp [hx])
      exact ⟨fun ht => absurd ht (by simp [hx]), fun hq => absurd hq (nowhere hp fresh)⟩
  | cons b bs ih =>
    match marks, m with
    | x :: xs, m =>
      have hx : x = false := h x (by simp)
      have hp : ¬P done := fun hp => absurd (m.1.2 hp) (by simp [hx])
      refine ⟨⟨fun ht => absurd ht (by simp [hx]), fun hq => absurd hq (nowhere hp fresh)⟩, ?_⟩
      refine ih (fun y hy => h y (by simp [hy])) ?_ m.2
      intro before inside e hi
      cases List.eq_nil_or_concat inside with
      | inl hn => exact absurd hn hi
      | inr hc =>
        obtain ⟨front, c, hc⟩ := hc
        rw [hc, List.concat_eq_append, ← List.append_assoc] at e
        have e1 : done = before ++ front := (List.append_inj' e rfl).1
        by_cases hf : front = []
        · rw [hf, List.append_nil] at e1
          exact e1 ▸ hp
        · exact fresh before front e1 hf

end Marks

theorem then_seq_iff {P : List UInt8 → Prop} {p q : Pattern} {cs : List UInt8} :
    Then (Then P p) q cs ↔ Then P (.seq p q) cs := by
  constructor
  · intro h
    obtain ⟨_, second, e, ⟨before, first, e2, hp, hf⟩, hs⟩ := h
    exact ⟨before, first ++ second, by rw [e, e2, List.append_assoc], hp, .seq hf hs⟩
  · intro h
    obtain ⟨before, inside, e, hp, hd⟩ := h
    cases hd with
    | @seq _ _ first second hf hs =>
      rw [← List.append_assoc] at e
      exact ⟨before ++ first, second, e, ⟨before, first, rfl, hp, hf⟩, hs⟩

theorem then_either_iff {P : List UInt8 → Prop} {p q : Pattern} {cs : List UInt8} :
    Then P p cs ∨ Then P q cs ↔ Then P (.either p q) cs := by
  constructor
  · intro h
    cases h with
    | inl h =>
      obtain ⟨before, inside, e, hp, hd⟩ := h
      exact ⟨before, inside, e, hp, .left hd⟩
    | inr h =>
      obtain ⟨before, inside, e, hp, hd⟩ := h
      exact ⟨before, inside, e, hp, .right hd⟩
  · intro h
    obtain ⟨before, inside, e, hp, hd⟩ := h
    cases hd with
    | left hd => exact Or.inl ⟨before, inside, e, hp, hd⟩
    | right hd => exact Or.inr ⟨before, inside, e, hp, hd⟩

/-- **The reached places are those behind a marked place and a text of the pattern.** -/
theorem marked_reach {P : List UInt8 → Prop} {p : Pattern} {bs : List UInt8} {marks : List Bool}
    (m : Marked P [] bs marks) : Marked (Then P p) [] bs (p.reach bs marks) := by
  induction p generalizing P marks with
  | empty =>
    refine marked_congr (fun cs => ⟨fun h => ⟨cs, [], by rw [List.append_nil], h, .empty⟩, ?_⟩) m
    intro h
    obtain ⟨before, inside, e, hp, hd⟩ := h
    cases hd
    rw [List.append_nil] at e
    exact e ▸ hp
  | one set =>
    exact marked_afterOne ⟨fun h => absurd h Bool.false_ne_true,
      fun h => absurd h not_then_one_nil⟩ m
  | many set =>
    refine marked_afterMany ⟨fun h => absurd h Bool.false_ne_true, fun h => ?_⟩ m
    obtain ⟨before, b, e, _, _⟩ := h
    exact absurd e.symm (by simp)
  | seq p q ihp ihq =>
    refine marked_congr (fun cs => then_seq_iff) ?_
    rw [reach]
    split
    · exact ihq (ihp m)
    · next hn =>
      refine marked_none (P := Then P p) ?_ ?_ ?_ (ihp m)
      · intro mark hm
        cases mark with
        | false => rfl
        | true => exact absurd (List.any_eq_true.2 ⟨true, hm, rfl⟩) hn
      · intro cs h
        obtain ⟨before, inside, e, hp, _⟩ := h
        exact ⟨before, inside, e, hp⟩
      · intro before inside e hi
        exact absurd (List.append_eq_nil_iff.1 e.symm).2 hi
  | either p q ihp ihq =>
    exact marked_congr (fun cs => then_either_iff) (marked_either (ihp m) (ihq m))

theorem marked_getLastD {P : List UInt8 → Prop} {done bs : List UInt8} {marks : List Bool}
    (m : Marked P done bs marks) : marks.getLastD false = true ↔ P (done ++ bs) := by
  induction bs generalizing done marks with
  | nil =>
    match marks, m with
    | [x], (m : x = true ↔ P done) => rw [List.append_nil]; exact m
  | cons b bs ih =>
    match marks, m with
    | x :: y :: rest, m =>
      have h := ih m.2
      rw [List.append_assoc] at h
      exact h
    | [x], m => cases bs <;> exact absurd m.2 id

theorem marked_behind {done : List UInt8} (bs : List UInt8) (h : done ≠ []) :
    Marked (fun cs => cs = []) done bs (false :: bs.map fun _ => false) := by
  induction bs generalizing done with
  | nil => exact ⟨fun e => absurd e Bool.false_ne_true, fun e => absurd e h⟩
  | cons b bs ih =>
    exact ⟨⟨fun e => absurd e Bool.false_ne_true, fun e => absurd e h⟩, ih (by simp)⟩

theorem marked_startOnly (bs : List UInt8) : Marked (fun cs => cs = []) [] bs (startOnly bs) := by
  cases bs with
  | nil => exact ⟨fun _ => rfl, fun _ => rfl⟩
  | cons b bs => exact ⟨⟨fun _ => rfl, fun _ => rfl⟩, marked_behind bs (by simp)⟩

theorem accepts_iff {p : Pattern} {bs : List UInt8} : p.accepts bs = true ↔ Describes p bs := by
  rw [accepts, marked_getLastD (marked_reach (marked_startOnly bs)), List.nil_append]
  constructor
  · intro h
    obtain ⟨before, inside, e, hp, hd⟩ := h
    rw [e, hp]
    exact hd
  · intro h
    exact ⟨[], bs, rfl, rfl, h⟩

/-! ## Building blocks -/

/-- One after the other, where an empty part adds nothing. -/
def followedBy (p q : Pattern) : Pattern :=
  match p, q with
  | .empty, q => q
  | p, .empty => p
  | p, q => .seq p q

/-- The patterns of a list, one after the other. -/
def concat (ps : List Pattern) : Pattern := ps.foldr followedBy .empty

/-- Any of the patterns that is not empty; none at all when there is no such pattern. -/
def anyOf (ps : List Pattern) : Pattern :=
  match ps.filter (· ≠ .empty) with
  | [] => .empty
  | p :: rest => rest.foldl .either p

/-- Exactly the bytes of a text. -/
def bytes (bs : List UInt8) : Pattern := concat (bs.map fun b => .one ⟨false, [(b, b)]⟩)

def anyByte : ByteSet := ⟨true, []⟩

def slash : UInt8 := 0x2f

def notSlash : ByteSet := ⟨true, [(slash, slash)]⟩

end Pattern

end Codebase.Glob
