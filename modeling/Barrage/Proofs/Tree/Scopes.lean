import Barrage.Host.Foundry
import Barrage.Proofs.Reset.Rebuild
import Barrage.Turn.InScope

/-!
# Parameters are those of the right scope

* `Program.Call.Notes`: the notes of a call. `Program.Annals`: those of all that happened to a program since
  it was built.
* `Program.Annals.tracked`: the tree of a program agrees with its annals, and all of them are in scope.
* `parameters_in_scope`: whatever a host does to a program, each formula is evaluated against the parameters
  of the scope that it is in.
-/

namespace Barrage

namespace Program

/-- The notes of a call to a program. Only a turn of a sequence that is not done has any, and a change from
outside has one. -/
inductive Call.Notes {φ ρ α : Type} [RandomSource ρ] [BulletFactory φ α] (p : Program) :
    Call φ ρ α → List Note → Prop where
  | idle {frame owner factory source last budget} (h : ∀ s, p.step = .sequence s → s.isDone = true) :
    Notes p (.execute frame owner factory source last budget) []
  | turn {frame owner factory source last budget s ns} (hs : p.step = .sequence s) (hd : s.isDone = false)
    (hns : (Step.sequence s).Notes ⟨p.builder, frame⟩ [] p.params
      (Turn.start owner factory source budget last) ns
      ((s.advance ⟨p.builder, frame⟩ p.params
        (Turn.start owner factory source budget last)).map .sequence)) :
    Notes p (.execute frame owner factory source last budget) ns
  | update (params : Params) : Notes p (.update params) [⟨[], .surrounded params⟩]
  | reset : Notes p .reset [⟨[], .restarted⟩]
  | finish : Notes p .finish []
  | bind (owner : BulletId) : Notes p (.bind owner) []

/-- Some calls lead from a program that was just built to another one, and the notes tell of all that
happened. -/
inductive Annals (p₀ : Program) : Program → List Note → Prop where
  | built : Annals p₀ p₀ [⟨[], .surrounded p₀.params⟩]
  | call {φ ρ α : Type} [RandomSource ρ] [BulletFactory φ α] {p hist ns} (c : Call φ ρ α)
    (h : Annals p₀ p hist) (hns : c.Notes p ns) : Annals p₀ (c.run p).1 (hist ++ ns)

section Calls

variable {φ ρ α : Type} [RandomSource ρ] [BulletFactory φ α] {p₀ p : Program} {hist ns : List Note}

/-- A program that is not a sequence with something to do has no turn. -/
theorem execute_idle (h : ∀ s, p.step = .sequence s → s.isDone = true) (frame : Frame) (owner : Bullet α)
    (factory : φ) (source : ρ) (last : LastFired) (budget : Nat) :
    (p.execute frame owner factory source last budget).program = p ∧
      (p.execute frame owner factory source last budget).journal = #[] := by
  unfold execute
  split
  · next s hs =>
    rw [if_pos (h s hs)]
    exact ⟨rfl, rfl⟩
  · exact ⟨rfl, rfl⟩

/-- Any other program has the turn of its sequence. -/
theorem execute_turn {s : Sequence Step} (hs : p.step = .sequence s) (hd : s.isDone = false) (frame : Frame)
    (owner : Bullet α) (factory : φ) (source : ρ) (last : LastFired) (budget : Nat) :
    let o := s.advance ⟨p.builder, frame⟩ p.params (Turn.start owner factory source budget last)
    (p.execute frame owner factory source last budget).program = { p with step := .sequence o.step } ∧
      (p.execute frame owner factory source last budget).journal = o.turn.journal := by
  unfold execute
  rw [hs]
  simp only [hd, Bool.false_eq_true, if_false, and_self]

/-- Every call has notes. -/
theorem Call.exists_notes (c : Call φ ρ α) (p : Program) : ∃ ns, c.Notes p ns := by
  cases c with
  | execute frame owner factory source last budget =>
    by_cases h : ∃ s, p.step = .sequence s ∧ s.isDone = false
    · obtain ⟨s, hs, hd⟩ := h
      obtain ⟨ns, hns⟩ := Sequence.advance_notes ⟨p.builder, frame⟩ [] p.params s
        (Turn.start owner factory source budget last)
      exact ⟨ns, .turn hs hd hns⟩
    · exact ⟨[], .idle fun s hs => by simpa using fun hd => h ⟨s, hs, hd⟩⟩
  | update params => exact ⟨_, .update params⟩
  | reset => exact ⟨_, .reset⟩
  | finish => exact ⟨_, .finish⟩
  | bind owner => exact ⟨_, .bind owner⟩

/-- The evaluations in the journal of a call are those of its notes. -/
theorem Call.Notes.readings {c : Call φ ρ α} (h : c.Notes p ns) {x : Executed φ ρ α}
    (hx : (c.run p).2 = some x) : x.journal.toList.filterMap Event.reading? = Barrage.readings ns := by
  cases h with
  | idle h =>
    cases hx
    rw [(execute_idle h _ _ _ _ _ _).2]
    rfl
  | turn hs hd hns =>
    cases hx
    rw [(execute_turn hs hd _ _ _ _ _ _).2]
    exact hns.readings
  | update | reset | finish | bind => cases hx

theorem reach_iff_annals : p₀.Reach p ↔ ∃ hist, p₀.Annals p hist := by
  constructor
  · intro h
    induction h with
    | refl => exact ⟨_, .built⟩
    | call c _ ih =>
      obtain ⟨hist, hp⟩ := ih
      obtain ⟨ns, hns⟩ := c.exists_notes _
      exact ⟨_, .call c hp hns⟩
  · rintro ⟨hist, h⟩
    induction h with
    | built => exact .refl
    | call c _ _ ih => exact .call c ih

/-- The tree of a program agrees with the notes of all that happened to it, all of which was in scope. -/
structure Faithful (tree : Step) (p : Program) (hist : List Note) : Prop where
  blank : p.step.blank = tree
  surroundings : Barrage.surroundings hist = some p.params
  tracked : p.step.Tracked [] p.params hist
  inScope : Each (Note.InScope tree) [] hist

theorem Faithful.call {tree : Step} (h : Faithful tree p hist) {c : Call φ ρ α} (hns : c.Notes p ns) :
    Faithful tree (c.run p).1 (hist ++ ns) := by
  cases hns with
  | idle hidle =>
    show Faithful tree (p.execute _ _ _ _ _ _).program _
    rw [(execute_idle hidle _ _ _ _ _ _).1, List.append_nil]
    exact h
  | @turn frame owner factory source last budget s ns hs hd hns =>
    have hblank := h.blank
    have htracked := h.tracked
    rw [hs] at hblank htracked
    have hroot : tree.sub? [] = some (Step.sequence s).blank := congrArg some hblank.symm
    obtain ⟨heach, hafter⟩ := hns.tracked hroot h.surroundings htracked
    show Faithful tree (p.execute _ _ _ _ _ _).program _
    rw [(execute_turn hs hd _ _ _ _ _ _).1]
    refine ⟨hns.blank.trans hblank, ?_, hafter, each_append.2 ⟨h.inScope, heach⟩⟩
    rw [surroundings_append fun n hn => (hns.inside n hn).surroundings]
    exact h.surroundings
  | update params =>
    refine ⟨(Step.blank_expire _).trans h.blank, ?_, ?_, each_append.2 ⟨h.inScope, each_singleton.2 trivial⟩⟩
    · simp [Barrage.surroundings, Note.surroundings?, Call.run, Program.update]
    · refine .expire (fun place x hx => ?_) fun place => derivations_surrounded hist params _
      rw [settlings_surrounded]
      exact h.tracked.settled place x hx
  | reset =>
    refine ⟨(Step.blank_reset _).trans h.blank, ?_, ?_, each_append.2 ⟨h.inScope, each_singleton.2 trivial⟩⟩
    · have hinside : ∀ n ∈ [(⟨[], .restarted⟩ : Note)], n.Inside [] := fun n hn => inside_singleton rfl hn
      rw [surroundings_append fun n hn => (hinside n hn).surroundings]
      exact h.surroundings
    · exact Step.tracked_reset p.step p.params (derivations_restarted hist) (settlings_restarted hist)
  | finish =>
    rw [List.append_nil]
    exact ⟨(Step.blank_finish _).trans h.blank, h.surroundings, h.tracked.finish, h.inScope⟩
  | bind owner =>
    rw [List.append_nil]
    exact h

theorem Annals.faithful (h : p₀.Annals p hist) (h₀ : p₀.step.blank = p₀.step) :
    Faithful p₀.step p hist := by
  induction h with
  | built =>
    refine ⟨h₀, rfl, ?_, each_singleton.2 trivial⟩
    rw [← h₀]
    exact Step.tracked_blank p₀.step p₀.params (fun place => derivations_surrounded [] p₀.params _)
      fun place => settlings_surrounded [] p₀.params _
  | call _ _ hns ih => exact ih.call hns

end Calls

end Program

/-- Whatever a host does to a program after it was built, in whatever order, there are notes of all that
happened, which tell of the same evaluations as the journals do.

Each formula that was evaluated belongs to the place where it was evaluated, and it was evaluated against
the parameters at that place: those that the program was given last, or below a reference those that its
arguments came to, against the parameters around it. The arguments had been evaluated exactly once since the
program was given these parameters, since the reference and what is around it started over last, and since
the references around it were evaluated last.

What a step has settled on is the one value that it settled on since it started over. New parameters leave
it as it is. -/
theorem parameters_in_scope {b : Builder} {o : Program.Origin} {params : Params} {p₀ : Program}
    (h₀ : o.build b params = .ok p₀) :
    (∀ p, p₀.Reach p ↔ ∃ hist, p₀.Annals p hist) ∧
    ∀ p hist, p₀.Annals p hist →
      (∀ before n after, hist = before ++ n :: after → n.InScope p₀.step before) ∧
      surroundings hist = some p.params ∧
      (∀ place x, p.step.settledAt? place = some x → settlings place hist = x.toList ∧
        ∀ params, (p.update params).step.settledAt? place = some x) ∧
      ∀ (φ ρ α : Type) [RandomSource ρ] [BulletFactory φ α] (c : Program.Call φ ρ α) (ns : List Note)
        (x : Executed φ ρ α), c.Notes p ns → (c.run p).2 = some x →
        x.journal.toList.filterMap Event.reading? = readings ns := by
  obtain ⟨-, hblank, -⟩ := Program.Origin.build_ok h₀
  refine ⟨fun p => Program.reach_iff_annals, fun p hist h => ?_⟩
  have hfaithful := h.faithful hblank
  refine ⟨fun before n after heq => ?_, hfaithful.surroundings, fun place x hx => ⟨?_, fun _ => ?_⟩, ?_⟩
  · exact each_iff.1 hfaithful.inScope before n after heq
  · exact hfaithful.tracked.settled place x hx
  · exact (Step.settledAt?_expire p.step place).trans hx
  · exact fun _ _ _ _ _ _ _ _ hns hx => hns.readings hx

/-- An action that waits as long as its caller says, and one that has it wait for one more than that. -/
def slackBuilder : Builder :=
  ⟨⟨[("pause", ⟨some "pause", [.wait (.param 1)]⟩),
      ("slack", ⟨some "slack", [.actionRef ⟨"pause", [.binary .add (.param 1) (.number 1)]⟩]⟩)], [], []⟩,
    .standard⟩

/-- An action that calls the second one twice, with one more than it is given. -/
def slackOrigin : Program.Origin :=
  .action ⟨none, [.loop (.number 2) (.reference ⟨"slack", [.binary .add (.param 1) (.number 1)]⟩)]⟩

/-- A long turn of a program, in a frame that still holds one iteration. -/
def slackCall : Program.Call Foundry Tape (Option String) :=
  .execute ⟨100, ⟨0, 0⟩, 0⟩ LabelledBullet.first .plain ⟨[], 0⟩ .nothing 1

set_option maxRecDepth 10000 in
/-- That action is built with 1 and then given 5, and waits for 7: two references are in between. -/
theorem parameters_in_scope_slack :
    ∃ p₀ p hist before n after, slackOrigin.build slackBuilder [1] = .ok p₀ ∧ p₀.Annals p hist ∧
      p.params = [5] ∧ hist = before ++ n :: after ∧ n.happening = .used (.param 1) [7] ∧
      p₀.step.vector? before n.place = some [7] := by
  obtain ⟨p₀, h₀⟩ : ∃ p₀, slackOrigin.build slackBuilder [1] = .ok p₀ := ⟨_, rfl⟩
  let update : Program.Call Foundry Tape (Option String) := .update [5]
  have hupdated : p₀.Annals (p₀.update [5]) _ := .call update .built (.update [5])
  obtain ⟨ns, hns⟩ := slackCall.exists_notes (p₀.update [5])
  obtain ⟨-, hall⟩ := parameters_in_scope h₀
  obtain ⟨-, -, -, hreadings⟩ := hall _ _ hupdated
  have hwaited : (.param 1, [7]) ∈ readings ns := by
    rw [← hreadings _ _ _ slackCall ns _ hns rfl]
    refine List.mem_filterMap.2 ⟨.evaluated (.param 1) [7], ?_, rfl⟩
    cases h₀
    decide +kernel
  obtain ⟨n, hn, hreading⟩ := List.mem_filterMap.1 hwaited
  obtain ⟨first, after, rfl⟩ := List.append_of_mem hn
  have hused : n.happening = .used (.param 1) [7] := by
    unfold Note.reading? at hreading
    split at hreading
    · next h =>
      cases hreading
      exact h
    · cases hreading
  obtain ⟨hinScope, hparams, -⟩ := hall _ _ (.call slackCall hupdated hns)
  have hn := hinScope _ n after (List.append_assoc _ first (n :: after)).symm
  unfold Note.InScope at hn
  rw [hused] at hn
  refine ⟨p₀, _, _, _, n, after, h₀, .call slackCall hupdated hns, ?_,
    (List.append_assoc _ first (n :: after)).symm, hused, hn.2.1⟩
  exact (Program.params_run slackCall (p₀.update [5]))

end Barrage
