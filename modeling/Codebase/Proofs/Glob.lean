import Codebase.Glob
import Mathlib.Data.List.Basic
/-!
# What a set of globs describes beneath a directory

Each glob enters a set twice, as it stands and with `/**` behind it.  So whatever a set describes,
it describes with everything beneath it.  The reader of globs has to be followed for that, since it
takes two stars in the place of the slash before them:

* `Pattern.describes_concat_append` — a row of patterns describes what its parts describe in turn.
* `State.step_sound` — leading directories stay alone while a glob is read.
* `tokens_append_stars` — the tokens of a glob with `/**` behind it.
* `Globs.accepts_beneath` — a set describes everything beneath what it describes.
-/

namespace Codebase.Glob

/-! ## Rows of patterns -/

namespace Pattern

variable {p q : Pattern} {ps qs : List Pattern} {bs more : List UInt8}

theorem describes_empty_iff : Describes .empty bs ↔ bs = [] := by
  constructor
  · intro h
    cases h
    rfl
  · rintro rfl
    exact .empty

theorem describes_seq_iff : Describes (.seq p q) bs ↔
    ∃ front back, bs = front ++ back ∧ Describes p front ∧ Describes q back := by
  constructor
  · intro h
    cases h with
    | seq hp hq => exact ⟨_, _, rfl, hp, hq⟩
  · rintro ⟨front, back, rfl, hp, hq⟩
    exact .seq hp hq

theorem describes_followedBy_iff : Describes (p.followedBy q) bs ↔
    ∃ front back, bs = front ++ back ∧ Describes p front ∧ Describes q back := by
  unfold followedBy
  split
  · simp [describes_empty_iff]
  · simp [describes_empty_iff]
  · exact describes_seq_iff

theorem describes_concat_append : Describes (concat (ps ++ qs)) bs ↔
    ∃ front back, bs = front ++ back ∧ Describes (concat ps) front ∧
      Describes (concat qs) back := by
  unfold concat
  induction ps generalizing bs with
  | nil => simp [describes_empty_iff]
  | cons p ps ih =>
    simp only [List.cons_append, List.foldr_cons, describes_followedBy_iff, ih]
    constructor
    · rintro ⟨front, _, rfl, hp, middle, back, rfl, hps, hqs⟩
      exact ⟨front ++ middle, back, (List.append_assoc _ _ _).symm,
        ⟨front, middle, rfl, hp, hps⟩, hqs⟩
    · rintro ⟨_, back, rfl, ⟨front, middle, rfl, hp, hps⟩, hqs⟩
      exact ⟨front, middle ++ back, List.append_assoc _ _ _, hp, middle, back, rfl, hps, hqs⟩

theorem describes_anything (bs : List UInt8) : Describes (.many anyByte) bs :=
  .many fun _ _ => rfl

/-- The texts of a subtree are those that start with a slash. -/
theorem describes_subtree_iff : Describes (concat [subtree]) bs ↔ ∃ rest, bs = slash :: rest := by
  have hslash : ∀ front, Describes slashes front ↔ front = [slash] := by
    intro front
    constructor
    · intro h
      cases h with
      | one h =>
        rename_i b
        have hb : slash ≤ b ∧ b ≤ slash := by simpa [ByteSet.contains] using h
        rw [UInt8.le_antisymm hb.2 hb.1]
    · rintro rfl
      exact .one rfl
  unfold concat subtree
  simp only [List.foldr_cons, List.foldr_nil, describes_followedBy_iff, describes_empty_iff,
    hslash]
  constructor
  · rintro ⟨_, _, rfl, ⟨_, rest, rfl, rfl, -⟩, rfl⟩
    exact ⟨rest, List.append_nil _⟩
  · rintro ⟨rest, rfl⟩
    exact ⟨slash :: rest, [], (List.append_nil _).symm, ⟨[slash], rest, rfl, rfl,
      describes_anything rest⟩, rfl⟩

end Pattern

/-! ## The reader -/

namespace Draft

variable {draft : Draft}

/-- The last token that was read stands for leading directories. -/
def Leads (draft : Draft) : Prop := ∃ rest, draft.tokens = .leading :: rest

theorem not_leads_of_cons {token : Token} {rest : List Token} (h : draft.tokens = token :: rest)
    (hother : token ≠ .leading) : ¬ draft.Leads := by
  rintro ⟨others, hleads⟩
  rw [h] at hleads
  cases hleads
  exact hother rfl

theorem not_leads_of_nil (h : draft.tokens = []) : ¬ draft.Leads := by
  rintro ⟨rest, hleads⟩
  rw [h] at hleads
  cases hleads

theorem deepen_of_leads {token : Token} (h : draft.Leads) : draft.deepen token = draft := by
  obtain ⟨rest, hleads⟩ := h
  unfold deepen
  rw [hleads]

theorem leads_of_deepen {token : Token} (hother : token ≠ .leading)
    (h : (draft.deepen token).Leads) : draft.Leads := by
  unfold deepen at h
  split at h
  · exact h
  · exact h
  · exact absurd h (not_leads_of_cons rfl hother)
  · exact absurd h (not_leads_of_cons rfl hother)

theorem close_eq_ok {read : List Token} (h : draft.close = .ok read) :
    draft.groups = [] ∧ draft.tokens.reverse = read := by
  unfold close isNested at h
  split at h
  · cases h
  · rename_i hnested
    cases h
    exact ⟨by simpa using hnested, rfl⟩

/-- A row that ends in something else than leading directories is more than these. -/
theorem reverse_ne_leading (h : ¬ draft.Leads) : draft.tokens.reverse ≠ [.leading] :=
  fun heq => h ⟨[], List.reverse_inj.1 heq⟩

theorem groups_deepen {token : Token} : (draft.deepen token).groups = draft.groups := by
  unfold deepen
  split <;> rfl

theorem tokens_deepen_ne_nil {token : Token} (hne : draft.tokens ≠ []) :
    (draft.deepen token).tokens ≠ [] := by
  unfold deepen
  split
  · exact hne
  · exact hne
  · exact List.cons_ne_nil _ _
  · exact List.cons_ne_nil _ _

/-- Deepening once more changes nothing. -/
theorem deepen_deepen (hne : draft.tokens ≠ []) :
    (draft.deepen .between).deepen .everything = draft.deepen .everything := by
  obtain ⟨tokens, groups⟩ := draft
  cases tokens with
  | nil => exact absurd rfl hne
  | cons token rest => cases token <;> rfl

end Draft

namespace State

variable {state next : State} {previous : Option Char} {draft : Draft} {c : Char}

/-- What holds of a reader: leading directories stand alone, and outside of any other construct
they have just been closed by a slash. -/
structure Sound (state : State) : Prop where
  alone : state.draft.Leads → state.draft.tokens = [.leading]
  closed : ∀ previous, state.mode = .plain previous → state.draft.Leads → previous = some '/'

/-- A character outside of any other construct leaves what was read, and opens a construct, or ends
with something else than leading directories. -/
theorem plain_spec (h : plain previous draft c = .ok next) :
    (next.draft = draft ∧ ∀ p, next.mode ≠ .plain p) ∨
      (¬ next.draft.Leads ∧ next.mode = .plain (some c)) := by
  unfold plain at h
  split at h
  · cases h
    exact .inr ⟨Draft.not_leads_of_cons rfl nofun, rfl⟩
  · cases h
    exact .inl ⟨rfl, nofun⟩
  · cases h
    exact .inl ⟨rfl, nofun⟩
  · cases h
    exact .inr ⟨Draft.not_leads_of_nil rfl, rfl⟩
  · unfold Draft.closeGroup at h
    split at h
    · cases h
    · cases h
      exact .inr ⟨Draft.not_leads_of_cons rfl nofun, rfl⟩
  · cases h
    refine .inr ⟨?_, rfl⟩
    unfold Draft.comma
    split
    · exact Draft.not_leads_of_cons rfl nofun
    · exact Draft.not_leads_of_nil rfl
  · cases h
    exact .inl ⟨rfl, nofun⟩
  · cases h
    exact .inr ⟨Draft.not_leads_of_cons rfl nofun, rfl⟩

theorem plain_sound (halone : draft.Leads → draft.tokens = [.leading])
    (h : plain previous draft c = .ok next) :
    next.Sound ∧ ∀ p, next.mode = .plain p → p = some c := by
  rcases plain_spec h with ⟨hdraft, hmode⟩ | ⟨hleads, hmode⟩
  · exact ⟨⟨by rw [hdraft]; exact halone, fun p hp => absurd hp (hmode p)⟩,
      fun p hp => absurd hp (hmode p)⟩
  · refine ⟨⟨fun h => absurd h hleads, fun _ _ h => absurd h hleads⟩, fun p hp => ?_⟩
    rw [hmode] at hp
    cases hp
    rfl

/-- A character behind two stars. -/
theorem behindStars_sound (halone : draft.Leads → draft.tokens = [.leading])
    (h : behindStars previous draft c = .ok next) :
    next.Sound ∧ ∀ p, next.mode = .plain p → p = some c := by
  have htwoStars : draft.twoStars.Leads → draft.twoStars.tokens = [.leading] :=
    fun hleads => absurd hleads (Draft.not_leads_of_cons rfl nofun)
  have hdeepen : ∀ token, token ≠ .leading → (draft.deepen token).Leads →
      (draft.deepen token).tokens = [.leading] := by
    intro token hother hleads
    have hbefore := Draft.leads_of_deepen hother hleads
    rw [Draft.deepen_of_leads hbefore]
    exact halone hbefore
  unfold behindStars at h
  split at h
  · rename_i hempty
    split at h
    · rename_i hslash
      cases h
      refine ⟨⟨fun _ => ?_, fun p hp _ => ?_⟩, fun p hp => ?_⟩
      · show Token.leading :: draft.tokens = [.leading]
        rw [List.isEmpty_iff.1 hempty]
      · cases hp
        rw [hslash]
      · cases hp
        rfl
    · exact plain_sound htwoStars h
  · split at h
    · split at h
      · rename_i hslash
        cases h
        refine ⟨⟨hdeepen .between nofun, fun p hp _ => ?_⟩, fun p hp => ?_⟩
        · cases hp
          rw [hslash]
        · cases hp
          rfl
      · split at h
        · exact plain_sound (hdeepen .everything nofun) h
        · exact plain_sound htwoStars h
    · exact plain_sound htwoStars h

/-- A character of a class. -/
theorem insideClass_sound {inside : ClassDraft} (halone : draft.Leads → draft.tokens = [.leading])
    (h : insideClass inside draft c = .ok next) :
    next.Sound ∧ ∀ p, next.mode = .plain p → p = some c := by
  unfold insideClass at h
  split at h
  · cases h
    have hleads : ¬ (draft.push inside.token).Leads := Draft.not_leads_of_cons rfl nofun
    refine ⟨⟨fun h => absurd h hleads, fun _ _ h => absurd h hleads⟩, fun p hp => ?_⟩
    cases hp
    rfl
  · cases haccept : inside.accept c with
    | error e => rw [haccept] at h; cases h
    | ok inside =>
      rw [haccept] at h
      cases h
      exact ⟨⟨halone, nofun⟩, nofun⟩

/-- **Every character keeps the reader sound, and is the one that is remembered.** -/
theorem step_sound (hstate : state.Sound) (h : state.step c = .ok next) :
    next.Sound ∧ ∀ p, next.mode = .plain p → p = some c := by
  unfold step at h
  split at h
  · exact plain_sound hstate.alone h
  · cases h
    have hleads : ¬ (state.draft.push (.literal c)).Leads := Draft.not_leads_of_cons rfl nofun
    refine ⟨⟨fun h => absurd h hleads, fun _ _ h => absurd h hleads⟩, fun p hp => ?_⟩
    cases hp
    rfl
  · split at h
    · cases h
      exact ⟨⟨hstate.alone, nofun⟩, nofun⟩
    · have hleads : ¬ (state.draft.push .anyRun).Leads := Draft.not_leads_of_cons rfl nofun
      exact plain_sound (fun h => absurd h hleads) h
  · exact behindStars_sound hstate.alone h
  · split at h
    · cases h
      exact ⟨⟨hstate.alone, nofun⟩, nofun⟩
    · exact insideClass_sound hstate.alone h
  · exact insideClass_sound hstate.alone h

theorem start_sound : start.Sound := by
  have hleads : ¬ start.draft.Leads := Draft.not_leads_of_nil rfl
  exact ⟨fun h => absurd h hleads, fun _ _ h => absurd h hleads⟩

/-- A glob that has been read leaves a sound reader, which remembers the last character when it is
outside of any other construct. -/
theorem foldlM_sound {glob : List Char} (hstate : state.Sound)
    (h : glob.foldlM step state = .ok next) :
    next.Sound ∧ ∀ p, next.mode = .plain p → glob ≠ [] → p = glob.getLast? := by
  induction glob generalizing state with
  | nil =>
    cases h
    exact ⟨hstate, fun _ _ hne => absurd rfl hne⟩
  | cons c rest ih =>
    rw [List.foldlM_cons] at h
    cases hstep : state.step c with
    | error e => rw [hstep] at h; cases h
    | ok middle =>
      rw [hstep] at h
      have hmiddle := step_sound hstate hstep
      obtain ⟨hnext, hlast⟩ := ih hmiddle.1 h
      refine ⟨hnext, fun p hp _ => ?_⟩
      cases rest with
      | nil =>
        cases h
        exact hmiddle.2 p hp
      | cons d rest => rw [hlast p hp (List.cons_ne_nil d rest), List.getLast?_cons_cons]

/-! ### Everything beneath -/

/-- The tokens of a glob that goes on with `/**` behind what has been read. -/
def closeBeneath (state : State) : Except Problem (List Token) := do
  (← ['/', '*', '*'].foldlM step state).close

/-- Behind a slash two stars stand for everything beneath. -/
theorem close_stars (draft : Draft) (hgroups : draft.groups = []) (hne : draft.tokens ≠ []) :
    (⟨.stars (some '/'), draft⟩ : State).close =
      .ok ((draft.deepen .everything).tokens.reverse) := by
  have hempty : draft.tokens.isEmpty = false := by simpa using hne
  unfold close
  simp only [hempty, Draft.startsName, decide_true, Bool.true_or, if_true, Bool.false_eq_true,
    if_false]
  unfold Draft.close Draft.isNested
  rw [Draft.groups_deepen, hgroups]
  rfl

theorem closeBeneath_plain (previous : Option Char) (draft : Draft) (hgroups : draft.groups = []) :
    closeBeneath ⟨.plain previous, draft⟩ = .ok (draft.tokens.reverse ++ [.everything]) :=
  (close_stars (draft.push (.literal '/')) hgroups (List.cons_ne_nil _ _)).trans
    (congrArg Except.ok List.reverse_cons)

theorem closeBeneath_star (hgroups : draft.groups = []) :
    closeBeneath ⟨.star previous, draft⟩ =
      .ok ((draft.push .anyRun).tokens.reverse ++ [.everything]) :=
  closeBeneath_plain (some '*') (draft.push .anyRun) hgroups

theorem closeBeneath_twoStars (hgroups : draft.groups = []) (hne : draft.tokens ≠ [])
    (hname : draft.startsName previous = false) :
    closeBeneath ⟨.stars previous, draft⟩ =
      .ok (draft.twoStars.tokens.reverse ++ [.everything]) := by
  have hempty : draft.tokens.isEmpty = false := by simpa using hne
  have hslash : step ⟨.stars previous, draft⟩ '/' = plain (some '*') draft.twoStars '/' := by
    unfold step behindStars
    simp only [hempty, hname, Bool.false_eq_true, if_false]
  unfold closeBeneath
  rw [List.foldlM_cons, hslash]
  exact closeBeneath_plain (some '*') draft.twoStars hgroups

theorem closeBeneath_deepened (hgroups : draft.groups = []) (hne : draft.tokens ≠ [])
    (hname : draft.startsName previous = true) :
    closeBeneath ⟨.stars previous, draft⟩ =
      .ok ((draft.deepen .everything).tokens.reverse) := by
  have hempty : draft.tokens.isEmpty = false := by simpa using hne
  have hslash : step ⟨.stars previous, draft⟩ '/' =
      .ok ⟨.plain (some '/'), draft.deepen .between⟩ := by
    unfold step behindStars
    simp only [hempty, hname, Bool.false_eq_true, if_false, if_true]
  unfold closeBeneath
  rw [List.foldlM_cons, hslash]
  refine (close_stars _ (Draft.groups_deepen.trans hgroups)
    (Draft.tokens_deepen_ne_nil hne)).trans ?_
  rw [Draft.deepen_deepen hne]

/-- How the tokens of a glob change when it goes on with `/**`. -/
def Deepens (read deeper : List Token) : Prop :=
  (deeper = read ++ [.everything] ∧ read ≠ [.leading]) ∨
    (deeper = read ∧ (read = [.leading] ∨ ∃ above, read = above ++ [.everything]))

/-- Deepening leaves a row that reaches over directories already. -/
theorem deepens_deepen (hsound : draft.Leads → draft.tokens = [.leading])
    (hne : draft.tokens ≠ []) :
    Deepens (draft.deepen .everything).tokens.reverse
      (draft.deepen .everything).tokens.reverse := by
  refine .inr ⟨rfl, ?_⟩
  unfold Draft.deepen
  split
  · rename_i rest hleading
    rw [hsound ⟨rest, hleading⟩]
    exact .inl rfl
  · rename_i rest heverything
    rw [heverything, List.reverse_cons]
    exact .inr ⟨_, rfl⟩
  · exact .inr ⟨_, List.reverse_cons⟩
  · rename_i hempty
    exact absurd hempty hne

/-- **A reader that may end here may go on with `/**`.** -/
theorem deepens_closeBeneath {read : List Token} (hstate : state.Sound)
    (hlast : ∀ p, state.mode = .plain p → p ≠ some '/') (h : state.close = .ok read) :
    ∃ deeper, state.closeBeneath = .ok deeper ∧ Deepens read deeper := by
  obtain ⟨mode, draft⟩ := state
  cases mode with
  | plain previous =>
    obtain ⟨hgroups, rfl⟩ := Draft.close_eq_ok h
    have hleads : ¬ draft.Leads := fun hleads =>
      hlast previous rfl (hstate.closed previous rfl hleads)
    exact ⟨_, closeBeneath_plain previous draft hgroups,
      .inl ⟨rfl, Draft.reverse_ne_leading hleads⟩⟩
  | escape => cases h
  | star previous =>
    obtain ⟨hgroups, rfl⟩ := (draft.push .anyRun).close_eq_ok h
    have hleads : ¬ (draft.push .anyRun).Leads := Draft.not_leads_of_cons rfl nofun
    exact ⟨_, closeBeneath_star hgroups, .inl ⟨rfl, Draft.reverse_ne_leading hleads⟩⟩
  | stars previous =>
    unfold close at h
    simp only at h
    split at h
    · rename_i hempty
      obtain ⟨tokens, groups⟩ := draft
      obtain rfl : tokens = [] := List.isEmpty_iff.1 hempty
      obtain ⟨hgroups, rfl⟩ := Draft.close_eq_ok h
      obtain rfl : groups = [] := hgroups
      exact ⟨_, rfl, .inr ⟨rfl, .inl rfl⟩⟩
    · rename_i hempty
      have hne : draft.tokens ≠ [] := fun h => hempty (List.isEmpty_iff.2 h)
      split at h
      · rename_i hname
        obtain ⟨hgroups, rfl⟩ := Draft.close_eq_ok h
        rw [Draft.groups_deepen] at hgroups
        exact ⟨_, closeBeneath_deepened hgroups hne hname, deepens_deepen hstate.alone hne⟩
      · rename_i hname
        obtain ⟨hgroups, rfl⟩ := Draft.close_eq_ok h
        have hleads : ¬ draft.twoStars.Leads := Draft.not_leads_of_cons rfl nofun
        exact ⟨_, closeBeneath_twoStars hgroups hne (Bool.eq_false_iff.2 hname),
          .inl ⟨rfl, Draft.reverse_ne_leading hleads⟩⟩
  | classStart => cases h
  | inClass inside => cases h

end State

variable {glob : List Char} {read : List Token}

/-- **With `/**` behind it a glob has a token for everything beneath, unless it already had one or
is nothing but leading directories.** -/
theorem tokens_append_stars (hne : glob ≠ []) (hlast : glob.getLast? ≠ some '/')
    (h : tokens glob = .ok read) :
    ∃ deeper, tokens (glob ++ ['/', '*', '*']) = .ok deeper ∧ State.Deepens read deeper := by
  unfold tokens at h ⊢
  cases hread : glob.foldlM State.step State.start with
  | error e =>
    rw [hread] at h
    cases h
  | ok state =>
    rw [hread] at h
    obtain ⟨hsound, hremembered⟩ := State.foldlM_sound State.start_sound hread
    have happend : (do (← (glob ++ ['/', '*', '*']).foldlM State.step State.start).close) =
        state.closeBeneath := by
      rw [List.foldlM_append, hread]
      rfl
    rw [happend]
    refine State.deepens_closeBeneath hsound (fun p hp hslash => hlast ?_) h
    rw [← hremembered p hp hne, hslash]

/-! ## Sets -/

open Pattern in
theorem pattern_ofTokens (h : read ≠ [.leading]) :
    (Rule.ofTokens read).pattern = concat (read.map Token.pattern) := by
  unfold Rule.ofTokens Rule.wholeRow Row.ofTokens
  split
  · exact absurd rfl h
  · rfl

/-- A row that ends in everything beneath describes what has a slash behind its other part. -/
theorem describes_append_everything_iff {above : List Token} {bs : List UInt8} :
    Pattern.Describes (Rule.ofTokens (above ++ [.everything])).pattern bs ↔
      ∃ front rest, bs = front ++ Pattern.slash :: rest ∧
        Pattern.Describes (Pattern.concat (above.map Token.pattern)) front := by
  have hrow : above ++ [.everything] ≠ [.leading] := by
    intro heq
    have hlast := congrArg List.getLast? heq
    rw [List.getLast?_append, List.getLast?_singleton] at hlast
    cases hlast
  rw [pattern_ofTokens hrow, List.map_append, Pattern.describes_concat_append]
  constructor
  · rintro ⟨front, _, rfl, hfront, hback⟩
    obtain ⟨rest, rfl⟩ := Pattern.describes_subtree_iff.1 hback
    exact ⟨front, rest, rfl, hfront⟩
  · rintro ⟨front, rest, rfl, hfront⟩
    exact ⟨front, _, rfl, hfront, Pattern.describes_subtree_iff.2 ⟨rest, rfl⟩⟩

/-- Such a row describes a text with anything behind it, too. -/
theorem describes_append_everything {above : List Token} {bs : List UInt8}
    (h : Pattern.Describes (Rule.ofTokens (above ++ [.everything])).pattern bs)
    (more : List UInt8) :
    Pattern.Describes (Rule.ofTokens (above ++ [.everything])).pattern (bs ++ more) := by
  obtain ⟨front, rest, rfl, hfront⟩ := describes_append_everything_iff.1 h
  exact describes_append_everything_iff.2
    ⟨front, rest ++ more, List.append_assoc _ _ _, hfront⟩

/-- What a glob describes, the glob with `/**` behind it describes with everything beneath. -/
theorem describes_beneath {deeper : List Token} {bs : List UInt8} (h : State.Deepens read deeper)
    (hdescribes : Pattern.Describes (Rule.ofTokens read).pattern bs) (rest : List UInt8) :
    Pattern.Describes (Rule.ofTokens deeper).pattern (bs ++ Pattern.slash :: rest) := by
  rcases h with ⟨rfl, hread⟩ | ⟨rfl, rfl | ⟨above, rfl⟩⟩
  · rw [pattern_ofTokens hread] at hdescribes
    exact describes_append_everything_iff.2 ⟨bs, rest, rfl, hdescribes⟩
  · exact Pattern.describes_anything _
  · exact describes_append_everything hdescribes _

/-- The glob with `/**` behind it describes everything beneath what it describes. -/
theorem describes_deeper_beneath {deeper : List Token} {bs : List UInt8}
    (h : State.Deepens read deeper)
    (hdescribes : Pattern.Describes (Rule.ofTokens deeper).pattern bs) (more : List UInt8) :
    Pattern.Describes (Rule.ofTokens deeper).pattern (bs ++ more) := by
  rcases h with ⟨rfl, -⟩ | ⟨rfl, rfl | ⟨above, rfl⟩⟩
  · exact describes_append_everything hdescribes more
  · exact Pattern.describes_anything _
  · exact describes_append_everything hdescribes more

end Codebase.Glob

namespace Codebase

open Glob

variable {globs : List String} {glob : String} {rules : List Rule} {rule : Rule} {set : Globs}

/-- A glob that enters a set ends in no slash. -/
theorem Glob.getLast?_trim (glob : String) : (trim glob).toList.getLast? ≠ some '/' := by
  unfold trim
  rw [String.toList_ofList, List.getLast?_reverse]
  intro hslash
  have hnot := List.head?_dropWhile_not (· = '/') (dropHere glob.toList).reverse
  rw [hslash] at hnot
  simp at hnot

namespace Globs

/-- The rules of a glob describe everything beneath what one of them describes. -/
theorem describes_rulesOf (hrules : rulesOf glob = .ok rules) (hrule : rule ∈ rules)
    {bs : List UInt8} (h : Pattern.Describes rule.pattern bs) (rest : List UInt8) :
    ∃ other ∈ rules, Pattern.Describes other.pattern (bs ++ Pattern.slash :: rest) := by
  unfold rulesOf at hrules
  simp only at hrules
  split at hrules
  · cases hrules
    cases hrule
  · rename_i hne
    unfold Rule.parse at hrules
    cases hread : tokens (trim glob).toList with
    | error problem =>
      rw [hread] at hrules
      cases hrules
    | ok read =>
      have hnonempty : (trim glob).toList ≠ [] := fun h => hne (String.toList_eq_nil_iff.1 h)
      obtain ⟨deeper, hdeeper, hdeepens⟩ :=
        tokens_append_stars hnonempty (getLast?_trim glob) hread
      have happend : (trim glob ++ "/**").toList = (trim glob).toList ++ ['/', '*', '*'] :=
        String.toList_append
      rw [hread, happend, hdeeper] at hrules
      cases hrules
      have hsecond : Rule.ofTokens deeper ∈ [Rule.ofTokens read, Rule.ofTokens deeper] := by simp
      rcases List.mem_cons.1 hrule with rfl | hrule
      · exact ⟨_, hsecond, describes_beneath hdeepens h rest⟩
      · obtain rfl := List.mem_singleton.1 hrule
        exact ⟨_, hsecond, describes_deeper_beneath hdeepens h _⟩

theorem accepts_iff {text : String} : set.accepts text = true ↔
    ∃ p ∈ set.patterns, Pattern.Describes p (text.toList.flatMap charBytes) := by
  unfold accepts
  simp only [List.any_eq_true, Pattern.accepts_iff]

theorem mem_flatten_mapM {globs : List String} {rows : List (List Rule)}
    (h : globs.mapM rulesOf = .ok rows) :
    rule ∈ rows.flatten ↔ ∃ glob ∈ globs, ∃ rules, rulesOf glob = .ok rules ∧ rule ∈ rules := by
  induction globs generalizing rows with
  | nil =>
    cases h
    simp
  | cons glob globs ih =>
    rw [List.mapM_cons] at h
    cases hfirst : rulesOf glob with
    | error refusal =>
      rw [hfirst] at h
      cases h
    | ok row =>
      cases hothers : globs.mapM rulesOf with
      | error refusal =>
        rw [hfirst, hothers] at h
        cases h
      | ok others =>
        rw [hfirst, hothers] at h
        cases h
        simp [ih hothers, hfirst]

/-- The patterns of a set are those of the rules of its globs. -/
theorem mem_patterns (hset : ofList globs = .ok set) {p : Pattern} : p ∈ set.patterns ↔
    ∃ rule : Rule, rule.pattern = p ∧
      ∃ glob ∈ globs, ∃ rules, rulesOf glob = .ok rules ∧ rule ∈ rules := by
  unfold ofList at hset
  cases hrows : globs.mapM rulesOf with
  | error refusal =>
    rw [hrows] at hset
    cases hset
  | ok rows =>
    rw [hrows] at hset
    simp only [bind, Except.bind] at hset
    split at hset
    · cases hset
    · cases hset
      simp only [List.mem_map, mem_flatten_mapM hrows]
      exact ⟨fun ⟨rule, h, hp⟩ => ⟨rule, hp, h⟩, fun ⟨rule, hp, h⟩ => ⟨rule, h, hp⟩⟩

/-- **A set describes everything beneath what it describes.** -/
theorem accepts_beneath (hset : ofList globs = .ok set) {directory : String}
    (h : set.accepts directory = true) (rest : String) :
    set.accepts (directory ++ "/" ++ rest) = true := by
  obtain ⟨p, hp, hdescribes⟩ := accepts_iff.1 h
  obtain ⟨rule, rfl, glob, hglob, rules, hrules, hrule⟩ := (mem_patterns hset).1 hp
  obtain ⟨other, hother, hbeneath⟩ :=
    describes_rulesOf hrules hrule hdescribes (rest.toList.flatMap charBytes)
  refine accepts_iff.2 ⟨other.pattern,
    (mem_patterns hset).2 ⟨other, rfl, glob, hglob, rules, hrules, hother⟩, ?_⟩
  have hbytes : (directory ++ "/" ++ rest).toList.flatMap charBytes =
      directory.toList.flatMap charBytes ++ Pattern.slash :: rest.toList.flatMap charBytes := by
    rw [String.toList_append, String.toList_append, List.flatMap_append, List.flatMap_append,
      List.append_assoc]
    rfl
  rw [hbytes]
  exact hbeneath

end Globs

end Codebase
