import Handy.Lib.LabelledRun
import Handy.Lib.OrderedMultimap

/-!
# The scheduler of `Bosma`

`Bosma::Scheduler` keeps its tasks in a multimap, under the times at which they are to be run. A
loop sleeps until the first of these times, or until it is interrupted, and `manage_tasks` then
pushes a functor for every task that is due into the thread pool. A task that recurs goes back into
the map at once, under its next time; an interval task goes back when its functor has been run, by
the worker that ran it.

A step is what is done between two points at which another thread may come in. `add_task` has the
lock from the change of the map to the interruption of the sleep, and the loop reads the map
without the lock in between. `manage_tasks` is one step: nobody else takes the lock meanwhile, and
the workers only take functors that it has pushed. The clock is read wherever the source reads it,
the readings of the loop are in the labels of its steps, and nothing is assumed about them but that
sums with them do not overflow. The pool hands out the functors in the order in which they were
pushed. One of its workers runs the loop, and takes functors like the others when the loop has quit.

No task is lost, and an interval task is never run twice at a time (`tasks_kept`); the loop does not
sleep while a task is due (`due_task_is_pushed`).
-/

set_option autoImplicit false

namespace Handy.Bosma

/-- `Task`; the time of the next run depends on what the clock shows. -/
structure Task where
  recur : Bool
  interval : Bool
  get_new_time : ℤ → ℤ

/-- The task goes back into the map when it is due. -/
def Task.recurs (task : Task) : Bool := !task.interval && task.recur

/-- `InTask`, of which the new time is not used. -/
def InTask : Task := ⟨false, false, fun _ => 0⟩

/-- `EveryTask`. -/
def EveryTask (time : ℤ) (interval : Bool) : Task := ⟨true, interval, fun now => now + time⟩

/-- `CronTask`, with what `cron_to_next` computes from the time. -/
def CronTask (cron_to_next : ℤ → ℤ) : Task := ⟨true, false, cron_to_next⟩

/-- Who has the lock: the program that adds a task, or a worker. -/
inductive Adder where
  | program
  | worker
  deriving DecidableEq, Repr

/-- Where the loop is. -/
inductive Loop where
  /-- It is to read `done` and the first time. -/
  | top
  /-- It sleeps until a time, or for ever. -/
  | sleep (time : Option ℤ)
  /-- It is to call `manage_tasks`. -/
  | manage
  | quit
  deriving DecidableEq, Repr

/-- Who takes a step; with what the clock shows when the sleep ends, when `manage_tasks` looks for
the tasks that are due, and when it computes the new time of a task. -/
inductive Actor (τ : Type) where
  | program (task : τ) (time : ℤ)
  | worker (task : τ)
  | interrupt
  | loop
  | wake (now : ℤ)
  | manage (now : ℤ) (later : τ → ℤ)
  | destructor

/-- The steps of the loop. -/
def Actor.OfLoop {τ : Type} : Actor τ → Prop
  | loop | wake _ | manage _ _ => True
  | _ => False

/-- A task that was handed to the pool: the time that it had in the map, and what the clock showed
when its new time was computed. -/
structure HandOut (τ : Type) where
  time : ℤ
  task : τ
  reading : ℤ

/-- The scheduler; `jobs` are the functors in the queue of the pool, `running` those that the
workers run, and `readding` the interval tasks that workers are to add again; `idle` workers of the
pool have nothing to do. The destructor is
`closing` when it has set `done` and not interrupted the sleep. The last three fields are histories:
the tasks that the program added, those that `manage_tasks` handed out and those whose functors were
run. -/
structure Scheduler (τ : Type) where
  tasks : OrderedMultimap ℤ τ
  jobs : List τ
  running : List τ
  readding : List τ
  idle : ℕ
  lock : Option Adder
  interrupted : Bool
  done : Bool
  closing : Bool
  loop : Loop
  added : List τ
  handed : List (HandOut τ)
  runs : List τ

namespace Scheduler

variable {τ : Type}

/-- The scheduler when it is made; of the `max_n_tasks + 1` workers of its pool one runs the loop. -/
def init (max_n_tasks : ℕ) : Scheduler τ :=
  ⟨.empty, [], [], [], max_n_tasks, none, false, false, false, .top, [], [], []⟩

/-- The workers that do not run the loop and are busy. -/
def busy (s : Scheduler τ) : ℕ :=
  s.running.length + s.readding.length + if s.lock = some .worker then 1 else 0

/-- The workers that do not run the loop. -/
def workers (s : Scheduler τ) (max_n_tasks : ℕ) : ℕ :=
  max_n_tasks + if s.loop = .quit then 1 else 0

/-- The tasks of `recurred_tasks`, under their new times; `later` is what the clock shows when the
new time of a task is computed. -/
def recurred_tasks (spec : τ → Task) (later : τ → ℤ) (due : List (ℤ × τ)) : OrderedMultimap ℤ τ :=
  due.foldl (fun recurred entry =>
    if (spec entry.2).recurs then
      recurred.emplace ((spec entry.2).get_new_time (later entry.2)) entry.2
    else recurred) .empty

/-- `manage_tasks`. -/
def manage_tasks (spec : τ → Task) (s : Scheduler τ) (now : ℤ) (later : τ → ℤ) : Scheduler τ :=
  let due := s.tasks.upTo now
  if due = [] then s
  else { s with
    jobs := s.jobs ++ due.map Prod.snd
    handed := s.handed ++ due.map fun entry => ⟨entry.1, entry.2, later entry.2⟩
    tasks := (recurred_tasks spec later due).entries.foldl
      (fun tasks task => tasks.emplace task.1 task.2) (s.tasks.eraseUpTo now) }

/-- The time of the first task. -/
def first (s : Scheduler τ) : Option ℤ := s.tasks.entries.head?.map Prod.fst

variable [DecidableEq τ]

/-- A step. -/
inductive Step (spec : τ → Task) (s : Scheduler τ) : Actor τ → Scheduler τ → Prop where
  -- `in`, `at`, `every`, `cron` and `interval`, which differ in the first time
  | add {task : τ} {time : ℤ} (fresh : task ∉ s.added) (free : s.lock = none) :
      Step spec s (.program task time) { s with
        tasks := s.tasks.emplace time task, added := s.added ++ [task], lock := some .program }
  -- the interruption at the end of `add_task`
  | interrupt {adder : Adder} (locked : s.lock = some adder) :
      Step spec s .interrupt { s with
        interrupted := true, lock := none, idle := s.idle + if adder = .worker then 1 else 0 }
  -- the loop
  | sleep (here : s.loop = .top) (running : s.done = false) :
      Step spec s .loop { s with loop := .sleep s.first }
  | quit (here : s.loop = .top) (done : s.done = true) :
      Step spec s .loop { s with loop := .quit, idle := s.idle + 1 }
  | wake {time : Option ℤ} {now : ℤ} (here : s.loop = .sleep time)
      (ends : s.interrupted = true ∨ ∃ first, time = some first ∧ first ≤ now) :
      Step spec s (.wake now) { s with loop := .manage, interrupted := false }
  | manage {now : ℤ} {later : τ → ℤ} (here : s.loop = .manage) (free : s.lock = none) :
      Step spec s (.manage now later) { s.manage_tasks spec now later with loop := .top }
  -- a worker
  | take {task : τ} {rest : List τ} {idle : ℕ} (first : s.jobs = task :: rest)
      (waiting : s.idle = idle + 1) :
      Step spec s (.worker task) { s with
        jobs := rest, running := task :: s.running, idle := idle }
  | finish {task : τ} (running : task ∈ s.running) (single : (spec task).interval = false) :
      Step spec s (.worker task) { s with
        running := s.running.erase task, runs := s.runs ++ [task], idle := s.idle + 1 }
  | finishInterval {task : τ} (running : task ∈ s.running) (interval : (spec task).interval = true) :
      Step spec s (.worker task) { s with
        running := s.running.erase task, runs := s.runs ++ [task]
        readding := task :: s.readding }
  | readd {task : τ} {now : ℤ} (ran : task ∈ s.readding) (free : s.lock = none) :
      Step spec s (.worker task) { s with
        tasks := s.tasks.emplace ((spec task).get_new_time now) task
        readding := s.readding.erase task, lock := some .worker }
  -- the destructor
  | close (running : s.done = false) :
      Step spec s .destructor { s with done := true, closing := true }
  | closed (closing : s.closing = true) :
      Step spec s .destructor { s with interrupted := true, closing := false }

/-! ## Where the tasks are -/

/-- The tasks of the map. -/
def pending (s : Scheduler τ) : List τ := s.tasks.entries.map Prod.snd

omit [DecidableEq τ] in
theorem pending_emplace (tasks : OrderedMultimap ℤ τ) (time : ℤ) (task : τ) :
    ((tasks.emplace time task).entries.map Prod.snd).Perm (task :: tasks.entries.map Prod.snd) :=
  (tasks.emplace_perm time task).map Prod.snd

omit [DecidableEq τ] in
/-- Some entries are emplaced one after the other. -/
theorem foldl_emplace_perm (list : List (ℤ × τ)) (tasks : OrderedMultimap ℤ τ) :
    (list.foldl (fun tasks task => tasks.emplace task.1 task.2) tasks).entries.Perm
      (list ++ tasks.entries) := by
  induction list generalizing tasks with
  | nil => exact .refl _
  | cons entry rest ih =>
      refine (ih _).trans ?_
      exact ((tasks.emplace_perm entry.1 entry.2).append_left _).trans List.perm_middle

omit [DecidableEq τ] in
/-- The tasks that recur, of those that are due. -/
theorem recurred_perm (spec : τ → Task) (later : τ → ℤ) (due : List (ℤ × τ)) :
    (recurred_tasks spec later due).entries.Perm
      ((due.filter fun entry => (spec entry.2).recurs).map fun entry =>
        ((spec entry.2).get_new_time (later entry.2), entry.2)) := by
  have folded : ∀ (entries : List (ℤ × τ)) (recurred : OrderedMultimap ℤ τ),
      (entries.foldl (fun recurred entry =>
        if (spec entry.2).recurs then
          recurred.emplace ((spec entry.2).get_new_time (later entry.2)) entry.2
        else recurred) recurred).entries.Perm
      (((entries.filter fun entry => (spec entry.2).recurs).map fun entry =>
        ((spec entry.2).get_new_time (later entry.2), entry.2)) ++ recurred.entries) := by
    intro entries
    induction entries with
    | nil =>
        intro recurred
        exact .refl _
    | cons entry rest ih =>
        intro recurred
        rw [List.foldl_cons, List.filter_cons]
        by_cases again : (spec entry.2).recurs = true
        · rw [if_pos again, if_pos again, List.map_cons]
          refine (ih _).trans ?_
          exact ((recurred.emplace_perm _ entry.2).append_left _).trans List.perm_middle
        · rw [if_neg again, if_neg again]
          exact ih recurred
  have all := folded due .empty
  rwa [show (OrderedMultimap.empty : OrderedMultimap ℤ τ).entries = [] from rfl,
    List.append_nil] at all

omit [DecidableEq τ] in
/-- The map after `manage_tasks`, when something is due. -/
theorem manage_entries (spec : τ → Task) {s : Scheduler τ} {now : ℤ} (later : τ → ℤ)
    (some : s.tasks.upTo now ≠ []) :
    (s.manage_tasks spec now later).tasks.entries.Perm
      ((((s.tasks.upTo now).filter fun entry => (spec entry.2).recurs).map fun entry =>
        ((spec entry.2).get_new_time (later entry.2), entry.2)) ++ s.tasks.above now) := by
  simp only [manage_tasks, if_neg some]
  exact (foldl_emplace_perm _ _).trans ((recurred_perm spec later _).append_right _)

/-- How often a task stands in the map again, of those that are due. -/
theorem recurring_count (spec : τ → Task) (later : τ → ℤ) (due : List (ℤ × τ)) (task : τ) :
    (((due.filter fun entry => (spec entry.2).recurs).map fun entry =>
      ((spec entry.2).get_new_time (later entry.2), entry.2)).map Prod.snd).count task =
      if (spec task).recurs then (due.map Prod.snd).count task else 0 := by
  have tasks : ((due.filter fun entry => (spec entry.2).recurs).map fun entry =>
      ((spec entry.2).get_new_time (later entry.2), entry.2)).map Prod.snd =
      (due.map Prod.snd).filter fun task => (spec task).recurs := by
    rw [List.map_map, List.filter_map]
    rfl
  rw [tasks]
  by_cases again : (spec task).recurs = true
  · rw [if_pos again, List.count_filter (p := fun task => (spec task).recurs) again]
  · rw [if_neg again, List.count_eq_zero]
    intro member
    exact again (List.of_mem_filter (p := fun task => (spec task).recurs) member)

/-- **What `manage_tasks` does to a task**: of its entries those that are due become functors, and
stay only if the task recurs. -/
theorem count_manage (spec : τ → Task) (s : Scheduler τ) (now : ℤ) (later : τ → ℤ) (task : τ) :
    ∃ due, s.pending.count task = due + ((s.tasks.above now).map Prod.snd).count task ∧
      (s.manage_tasks spec now later).jobs.count task = s.jobs.count task + due ∧
      ((s.manage_tasks spec now later).handed.map HandOut.task).count task =
        (s.handed.map HandOut.task).count task + due ∧
      (s.manage_tasks spec now later).pending.count task =
        ((s.tasks.above now).map Prod.snd).count task + if (spec task).recurs then due else 0 := by
  have whole : s.pending.count task = ((s.tasks.upTo now).map Prod.snd).count task +
      ((s.tasks.above now).map Prod.snd).count task := by
    rw [pending, ← s.tasks.upTo_append_above now, List.map_append, List.count_append]
  refine ⟨((s.tasks.upTo now).map Prod.snd).count task, whole, ?_⟩
  by_cases nothing : s.tasks.upTo now = []
  · simp only [manage_tasks, if_pos nothing]
    rw [whole, nothing]
    simp
  · refine ⟨?_, ?_, ?_⟩
    · simp only [manage_tasks, if_neg nothing, List.count_append]
    · simp only [manage_tasks, if_neg nothing, List.map_append, List.map_map, List.count_append]
      rfl
    · have left := ((manage_entries spec later nothing).map Prod.snd).count_eq task
      rw [List.map_append, List.count_append, recurring_count, add_comm] at left
      exact left

omit [DecidableEq τ] in
/-- What `manage_tasks` leaves alone. -/
theorem manage_frame (spec : τ → Task) (s : Scheduler τ) (now : ℤ) (later : τ → ℤ) :
    (s.manage_tasks spec now later).running = s.running ∧
      (s.manage_tasks spec now later).readding = s.readding ∧
      (s.manage_tasks spec now later).added = s.added ∧
      (s.manage_tasks spec now later).runs = s.runs ∧
      (s.manage_tasks spec now later).lock = s.lock ∧
      (s.manage_tasks spec now later).done = s.done ∧
      (s.manage_tasks spec now later).idle = s.idle := by
  unfold manage_tasks
  dsimp only
  split_ifs <;> exact ⟨rfl, rfl, rfl, rfl, rfl, rfl, rfl⟩

/-- How often a task is in the map, in the queue of the pool, with a worker that runs it, or with
one that is to add it again, and how often it was added, handed out and run. -/
structure Counts where
  pending : ℕ
  jobs : ℕ
  running : ℕ
  readding : ℕ
  added : ℕ
  handed : ℕ
  runs : ℕ

def counts (s : Scheduler τ) (task : τ) : Counts :=
  ⟨s.pending.count task, s.jobs.count task, s.running.count task, s.readding.count task,
    s.added.count task, (s.handed.map HandOut.task).count task, s.runs.count task⟩

/-- What a step does to the counts of a task. -/
inductive Counts.Move (task : Task) (c : Counts) : Counts → Prop where
  | same : Move task c c
  | add : Move task c { c with pending := c.pending + 1, added := c.added + 1 }
  | manage {due later : ℕ} (split : c.pending = due + later) :
      Move task c { c with
        pending := later + if task.recurs then due else 0, jobs := c.jobs + due
        handed := c.handed + due }
  | take {jobs : ℕ} (some : c.jobs = jobs + 1) :
      Move task c { c with jobs := jobs, running := c.running + 1 }
  | finish {running : ℕ} (some : c.running = running + 1) (single : task.interval = false) :
      Move task c { c with running := running, runs := c.runs + 1 }
  | finishInterval {running : ℕ} (some : c.running = running + 1) (interval : task.interval = true) :
      Move task c { c with
        running := running, runs := c.runs + 1, readding := c.readding + 1 }
  | readd {readding : ℕ} (some : c.readding = readding + 1) :
      Move task c { c with pending := c.pending + 1, readding := readding }

/-- An interval task is in one place for each time it was added, a task that recurs has one entry,
and any other is in one place or has been run. What was handed out had been added, and is in the
queue, is being run or has been. -/
structure Counts.Kept (task : Task) (c : Counts) : Prop where
  interval : task.interval = true → c.pending + c.jobs + c.running + c.readding = c.added
  single : task.interval = false → c.readding = 0
  recurs : task.interval = false → task.recur = true → c.pending = c.added
  once : task.interval = false → task.recur = false →
    c.pending + c.jobs + c.running + c.runs = c.added
  handed : c.handed = c.jobs + c.running + c.runs
  unadded : c.added = 0 → c.handed = 0

theorem Counts.Kept.move {task : Task} {c c' : Counts} (kept : c.Kept task) (move : c.Move task c') :
    c'.Kept task := by
  obtain ⟨recur, interval, new_time⟩ := task
  obtain ⟨many, single, again, once, handed, unadded⟩ := kept
  cases move with
  | same => exact ⟨many, single, again, once, handed, unadded⟩
  | add | take some | finish some _ | finishInterval some _ | readd some =>
      cases interval <;> cases recur <;> constructor <;> simp_all <;> omega
  | manage split =>
      cases interval <;> cases recur <;> constructor <;> simp_all [Task.recurs] <;> omega

theorem count_remove {task : τ} {list : List τ} (member : task ∈ list) :
    list.count task = (list.erase task).count task + 1 := by
  have some := List.count_pos_iff.mpr member
  rw [List.count_erase_self]
  omega

variable {spec : τ → Task} {max_n_tasks : ℕ} {s after : Scheduler τ} {actor : Actor τ}

/-- **What a step does to a task.** -/
theorem counts_step (step : Step spec s actor after) (task : τ) :
    (s.counts task).Move (spec task) (after.counts task) := by
  cases step with
  | @add new time fresh free =>
      have pending : ((s.tasks.emplace time new).entries.map Prod.snd).count task =
          (new :: s.pending).count task := (pending_emplace s.tasks time new).count_eq task
      by_cases same : new = task
      · subst same
        have moved : Counts.Move (spec new) (s.counts new) _ := .add
        convert moved using 1
        simp [counts, Scheduler.pending, pending]
      · convert Counts.Move.same using 1
        simp [counts, Scheduler.pending, pending, same]
  | @manage now later here free =>
      obtain ⟨due, split, jobs, handed, pending⟩ := count_manage spec s now later task
      obtain ⟨running, readding, added, runs, -⟩ := manage_frame spec s now later
      have moved : Counts.Move (spec task) (s.counts task) _ := .manage split
      convert moved using 1
      show (s.manage_tasks spec now later).counts task = _
      rw [counts, pending, jobs, running, readding, added, handed, runs]
      rfl
  | @take first rest idle queued waiting =>
      by_cases same : first = task
      · subst same
        have moved : Counts.Move (spec first) (s.counts first) _ :=
          .take (show s.jobs.count first = rest.count first + 1 by rw [queued, List.count_cons_self])
        convert moved using 1
        simp [counts, pending]
      · convert Counts.Move.same using 1
        simp [counts, pending, queued, same]
  | @finish ran running single =>
      by_cases same : ran = task
      · subst same
        have moved : Counts.Move (spec ran) (s.counts ran) _ := .finish (count_remove running) single
        convert moved using 1
        simp [counts, pending]
      · convert Counts.Move.same using 1
        simp [counts, pending, List.count_erase_of_ne (Ne.symm same), same]
  | @finishInterval ran running interval =>
      by_cases same : ran = task
      · subst same
        have moved : Counts.Move (spec ran) (s.counts ran) _ :=
          .finishInterval (count_remove running) interval
        convert moved using 1
        simp [counts, pending]
      · convert Counts.Move.same using 1
        simp [counts, pending, List.count_erase_of_ne (Ne.symm same), same]
  | @readd ran now member free =>
      have pending : ((s.tasks.emplace ((spec ran).get_new_time now) ran).entries.map Prod.snd).count
          task = (ran :: s.pending).count task := (pending_emplace s.tasks _ ran).count_eq task
      by_cases same : ran = task
      · subst same
        have moved : Counts.Move (spec ran) (s.counts ran) _ := .readd (count_remove member)
        convert moved using 1
        simp [counts, Scheduler.pending, pending]
      · convert Counts.Move.same using 1
        simp [counts, Scheduler.pending, pending, List.count_erase_of_ne (Ne.symm same), same]
  | _ => exact .same

/-! ## The sleep -/

/-- While the loop sleeps, it is to be interrupted, or the first task is not due before the sleep
ends; and every worker of the pool is idle, busy or runs the loop. -/
structure Sound (max_n_tasks : ℕ) (s : Scheduler τ) : Prop where
  distinct : s.added.Nodup
  asleep : ∀ time, s.loop = .sleep time → s.interrupted = true ∨ s.lock ≠ none ∨
    ∀ entry ∈ s.tasks.entries, ∃ first, time = some first ∧ first ≤ entry.1
  ending : ∀ time, s.loop = .sleep time → s.done = true → s.interrupted = true ∨ s.closing = true
  manned : s.idle + s.busy = s.workers max_n_tasks

omit [DecidableEq τ] in
/-- The first time is the least. -/
theorem first_le (s : Scheduler τ) (entry : ℤ × τ) (member : entry ∈ s.tasks.entries) :
    ∃ first, s.first = some first ∧ first ≤ entry.1 := by
  have sorted := s.tasks.sorted
  cases shape : s.tasks.entries with
  | nil =>
      rw [shape] at member
      cases member
  | cons head rest =>
      rw [shape] at member sorted
      refine ⟨head.1, by rw [first, shape]; rfl, ?_⟩
      rcases List.mem_cons.mp member with rfl | later
      · exact le_rfl
      · exact List.rel_of_pairwise_cons sorted later

theorem Sound.step (sound : s.Sound max_n_tasks) (step : Step spec s actor after) :
    after.Sound max_n_tasks := by
  obtain ⟨distinct, asleep, ending, manned⟩ := sound
  cases step with
  | @add new time fresh free =>
      refine ⟨?_, fun _ _ => .inr (.inl (by simp)), ending, ?_⟩
      · simpa only [List.concat_eq_append] using distinct.concat fresh
      · simpa [busy, workers, free] using manned
  | @interrupt adder locked =>
      refine ⟨distinct, fun _ _ => .inl rfl, fun _ _ _ => .inl rfl, Eq.trans ?_ manned⟩
      cases adder <;> simp [busy, locked]
      omega
  | sleep here running =>
      refine ⟨distinct, fun time now => ?_, fun _ _ done => ?_, manned.trans ?_⟩
      · cases now
        exact .inr (.inr s.first_le)
      · cases running.symm.trans done
      · simp [workers, here]
  | quit here _ =>
      refine ⟨distinct, nofun, nofun, ?_⟩
      simp only [busy, workers, here, reduceCtorEq, if_false, if_true] at manned ⊢
      omega
  | wake here _ =>
      refine ⟨distinct, nofun, nofun, manned.trans ?_⟩
      simp [workers, here]
  | @manage now later here free =>
      obtain ⟨running, readding, added, -, lock, -, idle⟩ := manage_frame spec s now later
      refine ⟨?_, nofun, nofun, ?_⟩
      · show (s.manage_tasks spec now later).added.Nodup
        rwa [added]
      · show (s.manage_tasks spec now later).idle + (s.manage_tasks spec now later).busy = max_n_tasks
        simp only [workers, here] at manned
        rwa [busy, running, readding, lock, idle]
  | @take first rest idle queued waiting =>
      refine ⟨distinct, asleep, ending, Eq.trans ?_ manned⟩
      simp only [busy, waiting, List.length_cons]
      omega
  | @finish ran running single =>
      refine ⟨distinct, asleep, ending, Eq.trans ?_ manned⟩
      have shorter := List.length_erase_of_mem running
      have some := List.length_pos_of_mem running
      simp only [busy]
      omega
  | @finishInterval ran running interval =>
      refine ⟨distinct, asleep, ending, Eq.trans ?_ manned⟩
      have shorter := List.length_erase_of_mem running
      have some := List.length_pos_of_mem running
      simp only [busy, List.length_cons]
      omega
  | @readd ran now member free =>
      refine ⟨distinct, fun _ _ => .inr (.inl (by simp)), ending, Eq.trans ?_ manned⟩
      have shorter := List.length_erase_of_mem member
      have some := List.length_pos_of_mem member
      simp only [busy, free, reduceCtorEq, if_true, if_false]
      omega
  | close _ => exact ⟨distinct, asleep, fun _ _ _ => .inr rfl, manned⟩
  | closed _ => exact ⟨distinct, fun _ _ => .inl rfl, fun _ _ _ => .inl rfl, manned⟩

end Scheduler

open Scheduler

variable {τ : Type} [DecidableEq τ] {spec : τ → Task} {max_n_tasks : ℕ} {actors : List (Actor τ)}
  {s : Scheduler τ}

theorem scheduler_sound (run : LabelledRun (Step spec) (init max_n_tasks) actors s) :
    s.Sound max_n_tasks ∧ ∀ task, (s.counts task).Kept (spec task) := by
  refine run.invariant (fun s => s.Sound max_n_tasks ∧ ∀ task, (s.counts task).Kept (spec task))
    ?_ ⟨⟨List.nodup_nil, nofun, nofun, rfl⟩, fun task => ?_⟩
  · rintro before actor after ⟨sound, kept⟩ step
    exact ⟨sound.step step, fun task => (kept task).move (counts_step step task)⟩
  · constructor <;> intros <;> rfl

/-- What the loop pushes when it goes on. -/
theorem woken_pushes {entry : ℤ × τ} (member : entry ∈ s.tasks.entries) {now reading : ℤ}
    {later : τ → ℤ} {after : Scheduler τ} (due : entry.1 ≤ reading)
    (goes : LabelledRun (Step spec) s [.wake now, .manage reading later] after) :
    entry.2 ∈ after.jobs := by
  cases goes with
  | cons woken managed =>
      cases woken with
      | wake here ends =>
          cases managed.step_of_single with
          | manage here free =>
              have seen : entry ∈ s.tasks.upTo reading := s.tasks.mem_upTo.mpr ⟨member, due⟩
              simp only [manage_tasks]
              rw [if_neg (List.ne_nil_of_mem seen)]
              exact List.mem_append_right _ (List.mem_map_of_mem seen)

/-- **The loop does not sleep while a task is due.** When the loop sleeps, whoever has added a task
has interrupted it, and the task is due when the clock shows `now`, then the sleep has been
interrupted or ends by `now`: the loop can go on when the clock shows `now`. As it goes on, it
pushes the task into the pool, if the clock has not gone back when `manage_tasks` reads it. -/
theorem due_task_is_pushed (run : LabelledRun (Step spec) (init max_n_tasks) actors s)
    {time : Option ℤ} (sleeps : s.loop = .sleep time) (free : s.lock = none) {entry : ℤ × τ}
    (member : entry ∈ s.tasks.entries) {now : ℤ} (due : entry.1 ≤ now) :
    (s.interrupted = true ∨ ∃ first, time = some first ∧ first ≤ now) ∧
    (∀ reading later, ∃ after,
      LabelledRun (Step spec) s [.wake now, .manage reading later] after) ∧
    ∀ reading later after, now ≤ reading →
      LabelledRun (Step spec) s [.wake now, .manage reading later] after →
        entry.2 ∈ after.jobs := by
  have wakes : s.interrupted = true ∨ ∃ first, time = some first ∧ first ≤ now := by
    rcases (scheduler_sound run).1.asleep time sleeps with interrupted | locked | early
    · exact .inl interrupted
    · exact absurd free locked
    · obtain ⟨first, ends, before⟩ := early entry member
      exact .inr ⟨first, ends, before.trans due⟩
  refine ⟨wakes, fun reading later => ?_, fun reading later after forward goes => ?_⟩
  · exact ⟨_, .cons (.wake sleeps wakes) (.single (.manage rfl free))⟩
  · exact woken_pushes member (due.trans forward) goes

/-- The task `()` is added while the loop sleeps for ever, and is due. -/
theorem due_task_is_pushed_added : ∃ s after : Scheduler Unit, s.loop = .sleep none ∧
    LabelledRun (Step fun _ => EveryTask 5 true) s [.wake 7, .manage 8 fun _ => 9] after ∧
    () ∈ after.jobs := by
  have run : LabelledRun (Step fun _ => EveryTask 5 true) (init 4 : Scheduler Unit) _ _ :=
    .cons (.sleep rfl rfl) <| .cons (@Step.add Unit _ _ _ () 7 List.not_mem_nil rfl) <|
      .single (.interrupt rfl)
  have member : ((7, ()) : ℤ × Unit) ∈
      ((OrderedMultimap.empty : OrderedMultimap ℤ Unit).emplace 7 ()).entries := List.mem_cons_self
  obtain ⟨-, able, pushes⟩ := due_task_is_pushed run rfl rfl member le_rfl
  obtain ⟨after, goes⟩ := able 8 fun _ => 9
  exact ⟨_, after, rfl, goes, pushes 8 _ after (by decide) goes⟩

/-- **The destructor ends the loop.** When it has set `done` and interrupted the sleep, the loop
quits by its own steps, as soon as the lock is free. -/
theorem destructor_ends_loop (run : LabelledRun (Step spec) (init max_n_tasks) actors s)
    (done : s.done = true) (closed : s.closing = false) (free : s.lock = none) :
    ∃ steps last, LabelledRun (Step spec) s steps last ∧
      (∀ actor ∈ steps, actor.OfLoop) ∧ last.loop = .quit := by
  -- from `manage_tasks` on
  have managed : ∀ s : Scheduler τ, s.done = true → s.lock = none → s.loop = .manage →
      ∃ last, LabelledRun (Step spec) s [.manage 0 fun _ => 0, .loop] last ∧
        last.loop = .quit := by
    intro s done free here
    obtain ⟨-, -, -, -, -, still, -⟩ := manage_frame spec s 0 fun _ => 0
    have manage : Step spec s (.manage 0 fun _ => 0)
        { s.manage_tasks spec 0 (fun _ => 0) with loop := .top } := .manage here free
    exact ⟨_, .cons manage (.single (.quit rfl (still.trans done))), rfl⟩
  cases here : s.loop with
  | quit => exact ⟨[], s, .refl s, by simp, here⟩
  | top => exact ⟨[.loop], _, .single (.quit here done), by simp [Actor.OfLoop], rfl⟩
  | manage =>
      obtain ⟨last, quits, ended⟩ := managed s done free here
      exact ⟨_, last, quits, by simp [Actor.OfLoop], ended⟩
  | sleep time =>
      have interrupted := ((scheduler_sound run).1.ending time here done).resolve_right (by simp [closed])
      have woken : Step spec s (.wake 0) { s with loop := .manage, interrupted := false } :=
        .wake here (.inl interrupted)
      obtain ⟨last, quits, ended⟩ := managed { s with loop := .manage, interrupted := false } done free rfl
      exact ⟨_, last, .cons woken quits, by simp [Actor.OfLoop], ended⟩

/-- The destructor is called while the loop sleeps. -/
theorem destructor_ends_loop_asleep : ∃ (s : Scheduler Unit) (steps : _) (last : Scheduler Unit),
    s.loop = .sleep none ∧ LabelledRun (Step fun _ => InTask) s steps last ∧
      (∀ actor ∈ steps, actor.OfLoop) ∧ last.loop = .quit := by
  have run : LabelledRun (Step fun _ => InTask) (init 4 : Scheduler Unit) _ _ :=
    .cons (.sleep rfl rfl) <| .cons (.close rfl) <| .single (.closed rfl)
  obtain ⟨steps, last, goes, own, quits⟩ := destructor_ends_loop run rfl rfl rfl
  exact ⟨_, steps, last, rfl, goes, own, quits⟩

end Handy.Bosma
