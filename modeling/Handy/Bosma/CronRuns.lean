import Handy.Bosma.CronNext
import Handy.Bosma.Scheduler

/-!
# The runs of a cron task

The scheduler asks a `CronTask` for its next time when it hands the task out, and the search starts
at what the clock shows then. So the task is handed out for every minute at which the expression is
due, in order, and leaves out those that have passed when the search starts (`cron_runs_complete`).
The clock may not go back while `manage_tasks` runs, since the task would be found again for the
same minute.
-/

set_option autoImplicit false

namespace Handy.Bosma

variable {τ : Type}

/-! ## Times that are handed out -/

/-- What was handed out and the time that is still in the map are due times after the start, in
order, and all of these up to then, except those that had passed when the clock was read after a
hand-out. -/
structure HandedOut (Due : ℤ → Prop) (start : ℤ) (handed : List (HandOut τ)) (due : ℤ) : Prop where
  ordered : (handed.map HandOut.time ++ [due]).Pairwise (· < ·)
  dues : ∀ time ∈ handed.map HandOut.time ++ [due], start < time ∧ Due time
  complete : ∀ time, start < time → time ≤ due → Due time →
    time ∈ handed.map HandOut.time ++ [due] ∨
      ∃ run ∈ handed, run.time < time ∧ time ≤ run.reading

namespace HandedOut

variable {Due : ℤ → Prop} {start due next : ℤ} {handed : List (HandOut τ)} {run : HandOut τ}

/-- At first the first due time is in the map. -/
theorem first (least : IsLeast {time | start < time ∧ Due time} due) :
    HandedOut Due start ([] : List (HandOut τ)) due := by
  refine ⟨List.pairwise_singleton _ _, ?_, fun time after before dueTime => .inl ?_⟩
  · intro time member
    rw [List.mem_singleton.mp member]
    exact least.1
  · rw [before.antisymm (least.2 ⟨after, dueTime⟩)]
    exact List.mem_singleton_self due

/-- The time in the map is handed out, not before it is due, and the next one is looked for. -/
theorem concat (all : HandedOut Due start handed due) (same : run.time = due)
    (late : due ≤ run.reading) (least : IsLeast {time | run.reading < time ∧ Due time} next) :
    HandedOut Due start (handed ++ [run]) next := by
  have times : (handed ++ [run]).map HandOut.time = handed.map HandOut.time ++ [due] := by
    rw [List.map_append, List.map_singleton, same]
  have latest : ∀ time ∈ handed.map HandOut.time ++ [due], time ≤ due := by
    intro time member
    rcases List.mem_append.mp member with earlier | last
    · exact ((List.pairwise_append.mp all.ordered).2.2 time earlier due
        (List.mem_singleton_self due)).le
    · exact (List.mem_singleton.mp last).le
  constructor
  · rw [times]
    refine List.pairwise_append.mpr ⟨all.ordered, List.pairwise_singleton _ _, ?_⟩
    intro time member last new
    rw [List.mem_singleton.mp new]
    exact ((latest time member).trans late).trans_lt least.1.1
  · intro time member
    rw [times] at member
    rcases List.mem_append.mp member with earlier | last
    · exact all.dues time earlier
    · rw [List.mem_singleton.mp last]
      have begun := (all.dues due (List.mem_append_right _ (List.mem_singleton_self due))).1
      exact ⟨(begun.trans_le late).trans least.1.1, least.1.2⟩
  · intro time after before dueTime
    rw [times]
    rcases le_or_gt time due with early | beyond
    · rcases all.complete time after early dueTime with member | missed
      · exact .inl (List.mem_append_left _ member)
      · obtain ⟨passing, among, missed⟩ := missed
        exact .inr ⟨passing, List.mem_append_left _ among, missed⟩
    · rcases le_or_gt time run.reading with passed | ahead
      · exact .inr ⟨run, List.mem_append_right _ (List.mem_singleton_self run), same.trans_lt beyond,
          passed⟩
      · rw [before.antisymm (least.2 ⟨ahead, dueTime⟩)]
        exact .inl (List.mem_append_right _ (List.mem_singleton_self next))

end HandedOut

/-! ## The task in the scheduler -/

namespace Scheduler

variable [DecidableEq τ]

/-- The entries of a task. -/
def entriesOf (s : Scheduler τ) (task : τ) : List (ℤ × τ) :=
  s.tasks.entries.filter fun entry => entry.2 = task

/-- When a task was handed out. -/
def handedOf (s : Scheduler τ) (task : τ) : List (HandOut τ) :=
  s.handed.filter fun run => run.task = task

theorem handedOf_length (s : Scheduler τ) (task : τ) :
    (s.handedOf task).length = (s.handed.map HandOut.task).count task := by
  rw [handedOf, List.count_eq_countP, List.countP_map, List.countP_eq_length_filter]
  congr 1

/-- A task is in the map once, and has been handed out for the due times before. -/
structure RecursFrom (Due : ℤ → Prop) (start : ℤ) (task : τ) (s : Scheduler τ) : Prop where
  added : task ∈ s.added
  idle : task ∉ s.readding
  runs : ∃ due, s.entriesOf task = [(due, task)] ∧ HandedOut Due start (s.handedOf task) due

variable {spec : τ → Task} {max_n_tasks : ℕ} {s after : Scheduler τ} {actor : Actor τ}
  {actors : List (Actor τ)} {task : τ}
  {start due now : ℤ} {later : τ → ℤ} {next : ℤ → ℤ} {Due : ℤ → Prop}

/-- Another task is put into the map. -/
theorem entriesOf_emplace {other : τ} {time : ℤ} (distinct : other ≠ task)
    (once : s.entriesOf task = [(due, task)]) :
    ((s.tasks.emplace time other).entries.filter fun entry => entry.2 = task) = [(due, task)] := by
  have moved := (s.tasks.emplace_perm time other).filter fun entry => decide (entry.2 = task)
  rw [List.filter_cons, if_neg (by simpa using distinct)] at moved
  exact List.perm_singleton.mp (once ▸ moved)

/-- Those entries of a task that are due, and those that are not. -/
theorem entriesOf_split (s : Scheduler τ) (now : ℤ) (task : τ) :
    ((s.tasks.upTo now).filter fun entry => entry.2 = task) ++
      ((s.tasks.above now).filter fun entry => entry.2 = task) = s.entriesOf task := by
  rw [← List.filter_append, s.tasks.upTo_append_above]
  rfl

/-- **What `manage_tasks` does with the entries of a task**: those that are due are handed out, and
go back under their next times if the task recurs. -/
theorem manage_of (spec : τ → Task) (s : Scheduler τ) (now : ℤ) (later : τ → ℤ) (task : τ) :
    (s.manage_tasks spec now later).handedOf task = s.handedOf task ++
      ((s.tasks.upTo now).filter fun entry => entry.2 = task).map
        (fun entry => ⟨entry.1, entry.2, later entry.2⟩) ∧
    ((s.manage_tasks spec now later).entriesOf task).Perm
      (((((s.tasks.upTo now).filter fun entry => entry.2 = task).filter
        fun entry => (spec entry.2).recurs).map fun entry =>
          ((spec entry.2).get_new_time (later entry.2), entry.2)) ++
        (s.tasks.above now).filter fun entry => entry.2 = task) := by
  by_cases nothing : s.tasks.upTo now = []
  · have split := s.entriesOf_split now task
    simp only [manage_tasks, if_pos nothing]
    rw [nothing] at split ⊢
    exact ⟨(List.append_nil _).symm, by rw [← split]; exact .refl _⟩
  · constructor
    · simp only [handedOf, manage_tasks, if_neg nothing, List.filter_append, List.filter_map]
      rfl
    · have moved := (manage_entries spec later nothing).filter fun entry => decide (entry.2 = task)
      rwa [List.filter_append, List.filter_map, List.filter_comm] at moved

/-- `manage_tasks` comes before the task is due. -/
theorem manage_early (once : s.entriesOf task = [(due, task)]) (early : now < due) :
    (s.manage_tasks spec now later).handedOf task = s.handedOf task ∧
      (s.manage_tasks spec now later).entriesOf task = [(due, task)] := by
  obtain ⟨handed, entries⟩ := manage_of spec s now later task
  have split := s.entriesOf_split now task
  have none : ((s.tasks.upTo now).filter fun entry => entry.2 = task) = [] := by
    refine List.eq_nil_iff_forall_not_mem.mpr fun entry member => ?_
    have low := s.tasks.le_of_mem_upTo (List.mem_of_mem_filter member)
    have only : entry ∈ [(due, task)] := by
      rw [← once, ← split]
      exact List.mem_append_left _ member
    rw [List.mem_singleton.mp only] at low
    exact absurd low (not_le.mpr early)
  rw [none] at handed entries split
  refine ⟨handed.trans (List.append_nil _), List.perm_singleton.mp ?_⟩
  rw [List.nil_append, once] at split
  rwa [split] at entries

/-- `manage_tasks` hands the task out. -/
theorem manage_late (made : spec task = CronTask next) (once : s.entriesOf task = [(due, task)])
    (late : due ≤ now) :
    (s.manage_tasks spec now later).handedOf task =
        s.handedOf task ++ [⟨due, task, later task⟩] ∧
      (s.manage_tasks spec now later).entriesOf task = [(next (later task), task)] := by
  obtain ⟨handed, entries⟩ := manage_of spec s now later task
  have split := s.entriesOf_split now task
  have none : ((s.tasks.above now).filter fun entry => entry.2 = task) = [] := by
    refine List.eq_nil_iff_forall_not_mem.mpr fun entry member => ?_
    have high := s.tasks.lt_of_mem_above (List.mem_of_mem_filter member)
    have only : entry ∈ [(due, task)] := by
      rw [← once, ← split]
      exact List.mem_append_right _ member
    rw [List.mem_singleton.mp only] at high
    exact absurd late (not_le.mpr high)
  rw [none, List.append_nil, once] at split
  rw [none, split] at entries
  rw [split] at handed
  refine ⟨handed, List.perm_singleton.mp ?_⟩
  simpa [made, CronTask, Task.recurs] using entries

/-- **A step keeps a cron task going.** -/
theorem RecursFrom.step (recursFrom : s.RecursFrom Due start task) (made : spec task = CronTask next)
    (finds : ∀ now, IsLeast {time | now < time ∧ Due time} (next now))
    (step : Step spec s actor after)
    (forward : ∀ now later, actor = .manage now later → now ≤ later task) :
    after.RecursFrom Due start task := by
  obtain ⟨added, idle, due, once, handed⟩ := recursFrom
  have other : ∀ ran, (spec ran).interval = true → ran ≠ task := by
    rintro ran interval rfl
    rw [made] at interval
    cases interval
  cases step with
  | @add new time fresh free =>
      have distinct : new ≠ task := fun same => fresh (same ▸ added)
      exact ⟨List.mem_append_left _ added, idle, due, entriesOf_emplace distinct once, handed⟩
  | @readd ran now member free =>
      have distinct : ran ≠ task := fun same => idle (same ▸ member)
      exact ⟨added, fun again => idle (List.mem_of_mem_erase again), due,
        entriesOf_emplace distinct once, handed⟩
  | @finishInterval ran running interval =>
      refine ⟨added, fun again => ?_, due, once, handed⟩
      rcases List.mem_cons.mp again with same | before
      · exact other ran interval same.symm
      · exact idle before
  | @manage now later here free =>
      obtain ⟨-, readding, stays, -⟩ := manage_frame spec s now later
      refine ⟨?_, ?_, ?_⟩
      · show task ∈ (s.manage_tasks spec now later).added
        rwa [stays]
      · show task ∉ (s.manage_tasks spec now later).readding
        rwa [readding]
      · rcases lt_or_ge now due with early | late
        · obtain ⟨same, still⟩ := @manage_early τ _ spec s task due now later once early
          exact ⟨due, still, show HandedOut Due start _ due from same ▸ handed⟩
        · obtain ⟨more, moved⟩ := @manage_late τ _ spec s task due now later next made once late
          refine ⟨next (later task), moved, ?_⟩
          show HandedOut Due start ((s.manage_tasks spec now later).handedOf task) _
          rw [more]
          exact handed.concat rfl (late.trans (forward now later rfl)) (finds _)
  | _ => exact ⟨added, idle, due, once, handed⟩

/-- A cron task that is added is in the map once, under its first time. -/
theorem RecursFrom.added_first (run : LabelledRun (Step spec) (init max_n_tasks) actors s)
    (made : spec task = CronTask next) (fresh : task ∉ s.added)
    (least : IsLeast {time | start < time ∧ Due time} due) :
    RecursFrom Due start task { s with
      tasks := s.tasks.emplace due task, added := s.added ++ [task], lock := some .program } := by
  have kept := (scheduler_sound run).2 task
  have interval : (spec task).interval = false := by rw [made]; rfl
  have recur : (spec task).recur = true := by rw [made]; rfl
  have unadded : s.added.count task = 0 := List.count_eq_zero.mpr fresh
  have absent : s.entriesOf task = [] := by
    refine List.filter_eq_nil_iff.mpr fun entry member => ?_
    have none : task ∉ s.pending :=
      List.count_eq_zero.mp ((kept.recurs interval recur).trans unadded)
    have among : entry.2 ∈ s.pending := List.mem_map_of_mem member
    simpa using fun same : entry.2 = task => none (same ▸ among)
  have unheard : s.handedOf task = [] :=
    List.eq_nil_of_length_eq_zero ((s.handedOf_length task).trans (kept.unadded unadded))
  refine ⟨List.mem_append_right _ (List.mem_singleton_self task),
    List.count_eq_zero.mp (kept.single interval), due, ?_, ?_⟩
  · have moved := (s.tasks.emplace_perm due task).filter fun entry => decide (entry.2 = task)
    rw [List.filter_cons, if_pos (by simp)] at moved
    exact List.perm_singleton.mp (absent ▸ moved)
  · show HandedOut Due start (s.handedOf task) due
    rw [unheard]
    exact .first least

end Scheduler

open Scheduler

variable [DecidableEq τ] {spec : τ → Task} {max_n_tasks : ℕ} {actors : List (Actor τ)}
  {s : Scheduler τ} {task : τ} {cron : Cron} {zone ticks start : ℤ} {next : ℤ → ℤ}

/-- The expression is due when a clock with some ticks to the second shows a time. -/
def Cron.DueAt (cron : Cron) (zone ticks time : ℤ) : Prop :=
  ∃ second, time = second * ticks ∧ cron.Due zone second

/-- `cron_to_next` between readings of the clock: the search starts at the second that has begun. -/
theorem least_tick {ticks now second : ℤ} (positive : 0 < ticks)
    (least : IsLeast {time | now / ticks < time ∧ cron.Due zone time} second) :
    IsLeast {time | now < time ∧ cron.DueAt zone ticks time} (second * ticks) := by
  obtain ⟨⟨after, due⟩, first⟩ := least
  refine ⟨⟨(Int.ediv_lt_iff_lt_mul positive).mp after, second, rfl, due⟩, ?_⟩
  rintro _ ⟨later, other, rfl, dueOther⟩
  have begun : now / ticks < other := (Int.ediv_lt_iff_lt_mul positive).mpr later
  exact Int.mul_le_mul_of_nonneg_right (first ⟨begun, dueOther⟩) positive.le

/-- **A cron task is handed out for every due minute in order, except those that had passed when
the next one was looked for.** The clock has some ticks to the second and shows times from 1970 on.
The task is added at `start`; it is in the map once, under the minute that is next, and what was
handed out is in the queue of the pool, with a worker, or has been run. -/
theorem cron_runs_complete (single : cron.month = -1 ∨ cron.day_of_week = -1)
    (finds : ∀ second, ∃ fuel, cron.cron_to_next zone fuel second = some (next second))
    (positive : 0 < ticks) (made : spec task = CronTask fun now => next (now / ticks) * ticks)
    (run : LabelledRun (Step spec) (init max_n_tasks) actors s)
    (added : .program task (next (start / ticks) * ticks) ∈ actors)
    (forward : ∀ now later, .manage now later ∈ actors → now ≤ later task) :
    ∃ due, s.entriesOf task = [(due, task)] ∧
      HandedOut (cron.DueAt zone ticks) start (s.handedOf task) due ∧
      (s.handedOf task).length =
        s.jobs.count task + s.running.count task + s.runs.count task := by
  have least : ∀ now, IsLeast {time | now < time ∧ cron.DueAt zone ticks time}
      (next (now / ticks) * ticks) :=
    fun now => least_tick positive (Iff.mp (cron_to_next_isLeast single _ _) (finds (now / ticks)))
  obtain ⟨earlier, before, after, rest, shape, reached, stepped, goes⟩ := run.split added
  have begins : after.RecursFrom (cron.DueAt zone ticks) start task := by
    cases stepped with
    | add fresh free => exact .added_first reached made fresh (least start)
  have goes_on : s.RecursFrom (cron.DueAt zone ticks) start task := by
    refine goes.invariant_of_allowed (RecursFrom (cron.DueAt zone ticks) start task)
      (fun actor => ∀ now later, actor = .manage now later → now ≤ later task) ?_ ?_ begins
    · intro before actor after allowed recursFrom step
      exact recursFrom.step made least step allowed
    · intro actor member now later same
      refine forward now later ?_
      rw [shape, ← same]
      exact List.mem_append_right _ (List.mem_cons_of_mem _ member)
  obtain ⟨due, once, handed⟩ := goes_on.runs
  exact ⟨due, once, handed, (s.handedOf_length task).trans ((scheduler_sound run).2 task).handed⟩

/-- The leap day of 2020 is handed out, and the next one is in the map. -/
theorem cron_runs_complete_leapDays : ∃ (next : ℤ → ℤ) (s : Scheduler Unit) (due : ℤ),
    LabelledRun (Step fun _ => CronTask fun now => next (now / 1000) * 1000) (init 4)
      [.program () 1582934400000, .interrupt, .loop, .wake 1582934400000,
        .manage 1582934400001 fun _ => 1582934400007] s ∧
    s.handedOf () = [⟨1582934400000, (), 1582934400007⟩] ∧ s.entriesOf () = [(due, ())] ∧
    HandedOut (leapDays.DueAt 0 1000) 1542844800999 (s.handedOf ()) due := by
  have ends : ∀ now, ∃ time fuel, leapDays.cron_to_next 0 fuel now = some time := by
    intro now
    obtain ⟨fuel, some⟩ := cron_to_next_ends (.inr rfl) leapDay_due now
    obtain ⟨time, found⟩ := Option.isSome_iff_exists.mp some
    exact ⟨time, fuel, found⟩
  choose next finds using ends
  have first : next 1542844800 = 1582934400 :=
    (Iff.mp (cron_to_next_isLeast (.inr rfl) _ _) (finds 1542844800)).unique
      (Iff.mp (cron_to_next_isLeast (.inr rfl) _ _) ⟨100, by decide +kernel⟩)
  have run : LabelledRun (Step fun _ => CronTask fun now => next (now / 1000) * 1000)
      (init 4 : Scheduler Unit) [.program () 1582934400000, .interrupt, .loop, .wake 1582934400000,
        .manage 1582934400001 fun _ => 1582934400007] _ :=
    .cons (.add List.not_mem_nil rfl) <| .cons (.interrupt rfl) <| .cons (.sleep rfl rfl) <|
      .cons (.wake rfl (.inl rfl)) <| .single (.manage rfl rfl)
  obtain ⟨due, once, handed, -⟩ := @cron_runs_complete Unit _
    (fun _ => CronTask fun now => next (now / 1000) * 1000) 4 _ _ () leapDays 0 1000 1542844800999
    next (.inr rfl) finds (by decide) rfl run (by simp [first]) (by simp)
  exact ⟨next, _, due, run, rfl, once, handed⟩

end Handy.Bosma
