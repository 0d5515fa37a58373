import DogecoinCore.Control
import Mathlib.Data.List.Nodup
import Mathlib.Data.List.Perm.Subperm

/-! A worklist walk over a directed graph: take a node off the stage, mark it, and put
its unmarked successors on the stage. A successor whose marks were worked out before
is not walked again, its remembered marks are added instead; a check may give the
walk up. -/
namespace DogecoinCore.Worklist
open List
variable {ι : Type} [DecidableEq ι]

/-- Deal with one successor; the state is the stage and the marked nodes. -/
def push (cached : ι → Option (List ι)) (s : List ι × List ι) (c : ι) : List ι × List ι :=
  match cached c with
  | some known => (s.1, known.foldl (fun done x => done.insert x) s.2)
  | none => if c ∈ s.2 then s else (s.1.insert c, s.2)

/-- One turn of the walk; it gives up with `none` when the node is not allowed. -/
def turn (next : ι → List ι) (cached : ι → Option (List ι)) (allow : ι → List ι → List ι → Bool) :
    List ι × List ι → Turn (List ι × List ι) (Option (List ι))
  | ([], done) => .leave (some done)
  | (x :: stage, done) =>
    let s := (next x).foldl (push cached) (stage, done.insert x)
    if allow x s.1 s.2 then .again s else .leave none

def walk (next : ι → List ι) (cached : ι → Option (List ι))
    (allow : ι → List ι → List ι → Bool) (fuel : ℕ) (stage done : List ι) :
    Option (Option (List ι)) :=
  iterate (turn next cached allow) fuel (stage, done)

variable {next : ι → List ι} {cached : ι → Option (List ι)} {allow : ι → List ι → List ι → Bool}
  {stage done r : List ι} {fuel : ℕ}

theorem mem_foldl_insert {known : List ι} :
    x ∈ known.foldl (fun done x => done.insert x) done ↔ x ∈ known ∨ x ∈ done := by
  induction known generalizing done with
  | nil => simp
  | cons _ known ih =>
    rw [foldl_cons, ih, mem_insert_iff, mem_cons]
    tauto

theorem nodup_foldl_insert {known : List ι} (nodup : done.Nodup) :
    (known.foldl (fun done x => done.insert x) done).Nodup := by
  induction known generalizing done with
  | nil => exact nodup
  | cons _ known ih => exact ih (nodup.insert)

def Known (cached : ι → Option (List ι)) (stage done : List ι) (c : ι) : Prop :=
  c ∈ done ∨ c ∈ stage ∨ ∃ known, cached c = some known ∧ known ⊆ done

omit [DecidableEq ι] in
theorem Known.mono (known : Known cached stage done c)
    (stages : stage ⊆ stage') (marks : done ⊆ done') : Known cached stage' done' c := by
  rcases known with marked | staged | ⟨s, at_c, inside⟩
  · exact .inl (marks marked)
  · exact .inr (.inl (stages staged))
  · exact .inr (.inr ⟨s, at_c, fun x mem => marks (inside mem)⟩)

/-- What dealing with a list of successors does to the stage and the marks. -/
structure Pushed (cached : ι → Option (List ι)) (cs stage done stage' done' : List ι) : Prop where
  stages : stage ⊆ stage'
  marks : done ⊆ done'
  staged : ∀ x ∈ stage', x ∈ stage ∨ (x ∈ cs ∧ x ∉ done)
  marked : ∀ x ∈ done', x ∈ done ∨
    ∃ c ∈ cs, ∃ known, cached c = some known ∧ x ∈ known ∧ known ⊆ done'
  known : ∀ c ∈ cs, Known cached stage' done' c
  stage_nodup : stage.Nodup → stage'.Nodup
  done_nodup : done.Nodup → done'.Nodup

theorem push_pushed (c : ι) (stage done : List ι) :
    Pushed cached [c] stage done (push cached (stage, done) c).1
      (push cached (stage, done) c).2 := by
  unfold push
  cases hit : cached c with
  | some known =>
    refine ⟨List.Subset.refl _, fun x mem => mem_foldl_insert.2 (.inr mem),
      fun x mem => .inl mem, ?_, ?_, id, nodup_foldl_insert⟩
    · intro x mem
      rcases mem_foldl_insert.1 mem with inside | old
      · exact .inr ⟨c, mem_singleton_self c, known, hit, inside,
          fun y inside => mem_foldl_insert.2 (.inl inside)⟩
      · exact .inl old
    intro x mem
    rw [mem_singleton] at mem
    subst mem
    exact .inr (.inr ⟨known, hit, fun y inside => mem_foldl_insert.2 (.inl inside)⟩)
  | none =>
    by_cases marked : c ∈ done
    · simp only [marked, if_true]
      refine ⟨List.Subset.refl _, List.Subset.refl _, fun x mem => .inl mem,
        fun x mem => .inl mem, ?_, id, id⟩
      intro x mem
      rw [mem_singleton] at mem
      exact .inl (mem ▸ marked)
    simp only [marked, if_false]
    refine ⟨fun x mem => mem_insert_of_mem mem, List.Subset.refl _, ?_,
      fun x mem => .inl mem, ?_, fun nodup => nodup.insert, id⟩
    · intro x mem
      rcases mem_insert_iff.1 mem with rfl | old
      · exact .inr ⟨mem_singleton_self x, marked⟩
      · exact .inl old
    intro x mem
    rw [mem_singleton] at mem
    exact .inr (.inl (mem ▸ mem_insert_self))

theorem foldl_pushed (cs stage done : List ι) :
    Pushed cached cs stage done (cs.foldl (push cached) (stage, done)).1
      (cs.foldl (push cached) (stage, done)).2 := by
  induction cs generalizing stage done with
  | nil =>
    exact ⟨List.Subset.refl _, List.Subset.refl _, fun x mem => .inl mem,
      fun x mem => .inl mem, by simp, id, id⟩
  | cons c cs ih =>
    have first : Pushed cached _ _ _ _ _ := push_pushed c stage done
    have rest := ih (push cached (stage, done) c).1 (push cached (stage, done) c).2
    refine ⟨fun x mem => rest.stages (first.stages mem),
      fun x mem => rest.marks (first.marks mem), ?_, ?_, ?_,
      fun nodup => rest.stage_nodup (first.stage_nodup nodup),
      fun nodup => rest.done_nodup (first.done_nodup nodup)⟩
    · intro x mem
      rcases rest.staged x mem with middle | ⟨later, fresh⟩
      · rcases first.staged x middle with old | ⟨here, fresh⟩
        · exact .inl old
        · rw [mem_singleton] at here
          exact .inr ⟨by simp [here], fresh⟩
      · exact .inr ⟨mem_cons_of_mem c later, fun marked => fresh (first.marks marked)⟩
    · intro x mem
      rcases rest.marked x mem with middle | ⟨c', later, known, hit, inside, whole⟩
      · rcases first.marked x middle with old | ⟨c', here, known, hit, inside, whole⟩
        · exact .inl old
        rw [mem_singleton] at here
        exact .inr ⟨c', by simp [here], known, hit, inside,
          fun _ mem => rest.marks (whole mem)⟩
      · exact .inr ⟨c', mem_cons_of_mem c later, known, hit, inside, whole⟩
    intro x mem
    rcases mem_cons.1 mem with rfl | later
    · exact (first.known x (mem_singleton_self x)).mono rest.stages rest.marks
    · exact rest.known x later

private theorem turn_cons (stage done : List ι) :
    ∃ stage' done', Pushed cached (next x) stage (done.insert x) stage' done' ∧
      (turn next cached allow (x :: stage, done) = .again (stage', done') ∨
        turn next cached allow (x :: stage, done) = .leave none) := by
  refine ⟨_, _, foldl_pushed (next x) stage (done.insert x), ?_⟩
  simp only [turn]
  split
  · exact .inl rfl
  · exact .inr rfl

private theorem walk_ends_of_taken (closed : ∀ x ∈ nodes, ∀ c ∈ next x, c ∈ nodes)
    (inside : stage ⊆ nodes) (stage_nodup : stage.Nodup) (taken_nodup : taken.Nodup)
    (taken_inside : taken ⊆ nodes) (marked : taken ⊆ done) (apart : ∀ x ∈ stage, x ∉ taken)
    (enough : nodes.length < fuel + taken.length) :
    ∃ result, walk next cached allow fuel stage done = some result := by
  induction fuel generalizing stage done taken with
  | zero =>
    have := (taken_nodup.subperm taken_inside).length_le
    omega
  | succ fuel ih =>
    cases stage with
    | nil => exact ⟨some done, rfl⟩
    | cons x stage =>
      obtain ⟨_, _, pushed, again | stop⟩ := turn_cons stage done
      swap
      · exact ⟨none, iterate.succ_leave stop⟩
      have fresh := apart x mem_cons_self
      have here := inside mem_cons_self
      have nodup := nodup_cons.1 stage_nodup
      rw [walk, iterate.succ_again again]
      have next_nodup := nodup_cons.2 ⟨fresh, taken_nodup⟩
      refine ih ?_ (pushed.stage_nodup nodup.2) next_nodup (cons_subset.2 ⟨here, taken_inside⟩) ?_ ?_
        (by rw [length_cons]; omega)
      · intro y mem
        rcases pushed.staged y mem with old | ⟨new, -⟩
        · exact inside (mem_cons_of_mem x old)
        · exact closed x here y new
      · refine cons_subset.2 ⟨pushed.marks mem_insert_self, fun y mem => ?_⟩
        exact pushed.marks (mem_insert_of_mem (marked mem))
      intro y mem
      rcases pushed.staged y mem with old | ⟨-, unmarked⟩
      · refine not_mem_cons_of_ne_of_not_mem (fun same => nodup.1 (same ▸ old)) ?_
        exact apart y (mem_cons_of_mem x old)
      · refine not_mem_cons_of_ne_of_not_mem (fun same => unmarked (same ▸ mem_insert_self)) ?_
        exact fun was => unmarked (mem_insert_of_mem (marked was))

theorem walk_ends (closed : ∀ x ∈ nodes, ∀ c ∈ next x, c ∈ nodes)
    (inside : stage ⊆ nodes) (nodup : stage.Nodup) (enough : nodes.length < fuel) :
    ∃ result, walk next cached allow fuel stage done = some result :=
  walk_ends_of_taken closed inside nodup nodup_nil (nil_subset _) (nil_subset _)
    (fun _ _ => not_mem_nil) enough

theorem walk_allowed (all : ∀ x stage done, allow x stage done)
    (ran : walk next cached allow fuel stage done = some result) : ∃ r, result = some r := by
  refine iterate.invariant (Q := fun result => ∃ r, result = some r)
    (fun _ _ _ _ => trivial) ?_ trivial ran
  rintro ⟨stage, done⟩ result - stop
  cases stage with
  | nil =>
    cases stop
    exact ⟨done, rfl⟩
  | cons x stage => simp [turn, all] at stop

private theorem walk_rule {I : List ι → List ι → Prop} {Q : List ι → Prop}
    (kept : ∀ x stage done stage' done', I (x :: stage) done →
      Pushed cached (next x) stage (done.insert x) stage' done' → I stage' done')
    (left : ∀ done, I [] done → Q done) (start : I stage done)
    (ran : walk next cached allow fuel stage done = some (some r)) : Q r := by
  refine iterate.invariant (I := fun s => I s.1 s.2) (Q := fun result => ∀ r, result = some r → Q r)
    ?_ ?_ start ran r rfl
  · rintro ⟨stage, done⟩ _ inv again
    cases stage with
    | nil => cases again
    | cons x stage =>
      obtain ⟨stage', done', pushed, again' | stop⟩ := turn_cons stage done
      · rw [again'] at again
        cases again
        exact kept x stage done stage' done' inv pushed
      · rw [stop] at again
        cases again
  rintro ⟨stage, done⟩ result inv stop r rfl
  cases stage with
  | nil =>
    cases stop
    exact left done inv
  | cons x stage =>
    obtain ⟨stage', done', -, again | stop'⟩ := turn_cons stage done
    · rw [again] at stop
      cases stop
    · rw [stop'] at stop
      cases stop

theorem walk_sound {P : ι → Prop} (step : ∀ x, P x → ∀ c ∈ next x, P c)
    (remembered : ∀ x, P x → ∀ c ∈ next x, ∀ known, cached c = some known → ∀ y ∈ known, P y)
    (staged : ∀ x ∈ stage, P x) (marked : ∀ x ∈ done, P x)
    (ran : walk next cached allow fuel stage done = some (some r)) : ∀ x ∈ r, P x := by
  refine walk_rule (I := fun stage done => (∀ x ∈ stage, P x) ∧ ∀ x ∈ done, P x) ?_
    (fun done inv => inv.2) ⟨staged, marked⟩ ran
  rintro x stage done _ _ ⟨staged, marked⟩ pushed
  have here := staged x mem_cons_self
  refine ⟨fun y mem => ?_, fun y mem => ?_⟩
  · rcases pushed.staged y mem with old | ⟨new, -⟩
    · exact staged y (mem_cons_of_mem x old)
    · exact step x here y new
  rcases pushed.marked y mem with old | ⟨c, new, known, hit, inside, -⟩
  · rcases mem_insert_iff.1 old with rfl | old
    · exact here
    · exact marked y old
  · exact remembered x here c new known hit y inside

theorem walk_nodup (nodup : done.Nodup)
    (ran : walk next cached allow fuel stage done = some (some r)) : r.Nodup :=
  walk_rule (fun _ _ _ _ _ nodup pushed =>
    pushed.done_nodup nodup.insert) (fun _ nodup => nodup) nodup ran

theorem walk_start (ran : walk next cached allow fuel stage done = some (some r)) :
    stage ⊆ r ∧ done ⊆ r := by
  refine walk_rule (I := fun stage' done' => (∀ x ∈ stage, x ∈ stage' ∨ x ∈ done') ∧ done ⊆ done')
    (Q := fun r => stage ⊆ r ∧ done ⊆ r) ?_ ?_
    ⟨fun x mem => .inl mem, List.Subset.refl _⟩ ran
  · rintro x _ _ _ _ ⟨staged, marked⟩ pushed
    refine ⟨fun y mem => ?_, fun y mem => pushed.marks (mem_insert_of_mem (marked mem))⟩
    rcases staged y mem with waiting | already
    · rcases mem_cons.1 waiting with rfl | waiting
      · exact .inr (pushed.marks mem_insert_self)
      · exact .inl (pushed.stages waiting)
    · exact .inr (pushed.marks (mem_insert_of_mem already))
  · rintro done' ⟨staged, marked⟩
    exact ⟨fun x mem => (staged x mem).resolve_left not_mem_nil, marked⟩

theorem walk_closed (remembered : ∀ c known, cached c = some known → ∀ y ∈ known, ∀ c' ∈ next y,
      Known cached [] known c')
    (marked : ∀ y ∈ done, ∀ c ∈ next y, Known cached stage done c)
    (ran : walk next cached allow fuel stage done = some (some r)) :
    ∀ y ∈ r, ∀ c ∈ next y, Known cached [] r c := by
  refine walk_rule (I := fun stage done => ∀ y ∈ done, ∀ c ∈ next y, Known cached stage done c) ?_
    (fun done inv => inv) marked ran
  intro _ stage done _ done' marked pushed y mem c edge
  have marks : done ⊆ done' := fun _ old => pushed.marks (mem_insert_of_mem old)
  rcases pushed.marked y mem with old | ⟨c', -, known, hit, inside, whole⟩
  · rcases mem_insert_iff.1 old with rfl | old
    · exact pushed.known c edge
    rcases marked y old c edge with mark | waiting | remembered
    · exact .inl (marks mark)
    · rcases mem_cons.1 waiting with rfl | waiting
      · exact .inl (pushed.marks mem_insert_self)
      · exact .inr (.inl (pushed.stages waiting))
    · exact Known.mono (.inr (.inr remembered)) pushed.stages marks
  · exact (remembered c' known hit y inside c edge).mono (nil_subset _) whole

theorem mem_walk_iff (marked : ∀ y ∈ done, ∀ c ∈ next y, c ∈ done)
    (ran : walk next (fun _ => none) allow fuel stage done = some (some r)) (x : ι) :
    x ∈ r ↔ x ∈ done ∨ ∃ s ∈ stage, Relation.ReflTransGen (fun a b => b ∈ next a) s x := by
  obtain ⟨staged, old⟩ := walk_start ran
  have closed : ∀ y ∈ r, ∀ c ∈ next y, c ∈ r := by
    intro y mem c edge
    rcases walk_closed (by simp) (fun y mem c edge => .inl (marked y mem c edge)) ran y mem
      c edge with mark | waiting | ⟨known, hit, -⟩
    · exact mark
    · cases waiting
    · cases hit
  constructor
  · refine walk_sound (P := fun x => x ∈ done ∨
      ∃ s ∈ stage, Relation.ReflTransGen (fun a b => b ∈ next a) s x) ?_ (by simp)
      (fun x mem => .inr ⟨x, mem, .refl⟩) (fun x mem => .inl mem) ran x
    rintro x (here | ⟨s, mem, path⟩) c edge
    · exact .inl (marked x here c edge)
    · exact .inr ⟨s, mem, path.tail edge⟩
  rintro (mem | ⟨s, mem, path⟩)
  · exact old mem
  induction path with
  | refl => exact staged mem
  | tail _ edge ih => exact closed _ ih _ edge

end DogecoinCore.Worklist
