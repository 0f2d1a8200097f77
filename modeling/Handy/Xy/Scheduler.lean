import Handy.Lib.OrderedMultimap

/-!
# The scheduler of `xy`

`xy::Scheduler` keeps its tasks in a multimap, under the times at which they are to be run. A
thread of the pool sleeps until the first of these times, and `execNearestAndUpdate` then hands
every task that is due to the thread pool. A task that was made by `runEvery` goes back into the
map, under a new time; for this the tasks are collected in a second multimap, and emplaced in the
order of their new times when those handed over have been erased.

Every operation takes the mutex of the map, so operations are single steps. The clock is read at
the beginning of an operation, and in `execNearestAndUpdate` once more for each task that goes
back; nothing is assumed about the readings. Each task is handed over by the first
`execNearestAndUpdate` that finds it due, in the order of the times, and a task of `runEvery` has
one entry at any moment (`tasks_dispatched`).
-/

set_option autoImplicit false

namespace Handy.Xy

/-- A time point of `Clock`. It has 64 bits of nanoseconds; the sums of a reading and a duration are
taken not to overflow. -/
abbrev Time := ℤ

/-- `Task`, with its derived classes. -/
inductive Task (F : Type) where
  | taskAt (f : F)
  | taskEvery (dura : ℤ) (f : F)
  deriving DecidableEq, Repr

namespace Task

variable {F : Type}

def getFun : Task F → F
  | .taskAt f | .taskEvery _ f => f

def bInterval : Task F → Bool
  | .taskAt _ => false
  | .taskEvery _ _ => true

/-- `getNextTime`, with the reading of the clock. -/
def getNextTime (now : Time) : Task F → Time
  | .taskAt _ => 0
  | .taskEvery dura _ => now + dura

end Task

/-- A shared pointer: the pointers to a task are equal, and others are not. -/
structure Shared (F : Type) where
  ptr : ℕ
  task : Task F
  deriving DecidableEq, Repr

/-- A value of `mapTasks_`, and how many were emplaced before it, which the source does not keep. -/
structure Slot (F : Type) where
  serial : ℕ
  shared : Shared F
  deriving DecidableEq, Repr

/-- The scheduler, with all functions that were pushed into its thread pool, the number of tasks
made and the number of entries emplaced so far. -/
structure Scheduler (F : Type) where
  mapTasks : OrderedMultimap Time (Slot F)
  pushed : List F
  made : ℕ
  emplaced : ℕ

namespace Scheduler

variable {F : Type}

def init : Scheduler F := ⟨.empty, [], 0, 0⟩

/-- `mapTasks_.emplace`. -/
def emplace (s : Scheduler F) (time : Time) (shared : Shared F) : Scheduler F := { s with
  mapTasks := s.mapTasks.emplace time ⟨s.emplaced, shared⟩
  emplaced := s.emplaced + 1 }

/-- `addTask`, of a task that was made for it. -/
def addTask (s : Scheduler F) (timePoint : Time) (t : Task F) : Scheduler F :=
  { s.emplace timePoint ⟨s.made, t⟩ with made := s.made + 1 }

def runAt (s : Scheduler F) (tPoint : Time) (f : F) : Scheduler F := s.addTask tPoint (.taskAt f)

def runAfter (s : Scheduler F) (now : Time) (dura : ℤ) (f : F) : Scheduler F :=
  s.runAt (now + dura) f

def runEvery (s : Scheduler F) (now : Time) (dura : ℤ) (f : F) : Scheduler F :=
  s.addTask ((Task.taskEvery dura f).getNextTime now) (.taskEvery dura f)

/-- What the loop of `execNearestAndUpdate` has done: the functions pushed into the pool, the
tasks that are to go back, and how often it has read the clock. -/
structure HandOver (F : Type) where
  pushed : List F
  everyTask : OrderedMultimap Time (Shared F)
  reads : ℕ

/-- The loop at an entry; the clock is read at `later 0`, `later 1` and so on. -/
def HandOver.next (later : ℕ → Time) (h : HandOver F) (entry : Time × Slot F) : HandOver F :=
  let shared := entry.2.shared
  let h := { h with pushed := h.pushed ++ [shared.task.getFun] }
  if shared.task.bInterval then { h with
    everyTask := h.everyTask.emplace (shared.task.getNextTime (later h.reads)) shared
    reads := h.reads + 1 }
  else h

/-- `execNearestAndUpdate`. -/
def execNearestAndUpdate (s : Scheduler F) (now : Time) (later : ℕ → Time) : Scheduler F :=
  let toRun := s.mapTasks.upTo now
  if toRun = [] then s
  else
    let h := toRun.foldl (HandOver.next later) ⟨s.pushed, .empty, 0⟩
    let s := { s with mapTasks := s.mapTasks.eraseUpTo now, pushed := h.pushed }
    h.everyTask.entries.foldl (fun s task => s.emplace task.1 task.2) s

/-! ## Operations -/

/-- The operations, with the readings of the clock that they make. -/
inductive Op (F : Type) where
  | runAt (tPoint : Time) (f : F)
  | runAfter (now : Time) (dura : ℤ) (f : F)
  | runEvery (now : Time) (dura : ℤ) (f : F)
  | exec (now : Time) (later : ℕ → Time)

def step (s : Scheduler F) : Op F → Scheduler F
  | .runAt tPoint f => s.runAt tPoint f
  | .runAfter now dura f => s.runAfter now dura f
  | .runEvery now dura f => s.runEvery now dura f
  | .exec now later => s.execNearestAndUpdate now later

def run (s : Scheduler F) (ops : List (Op F)) : Scheduler F := ops.foldl step s

/-- The entries that an operation hands over. -/
def handed (s : Scheduler F) : Op F → List (Time × Slot F)
  | .exec now _ => s.mapTasks.upTo now
  | _ => []

/-- What each operation of a run hands over. -/
def handedBy (s : Scheduler F) : List (Op F) → List (List (Time × Slot F))
  | [] => []
  | op :: ops => s.handed op :: handedBy (s.step op) ops

/-- The tasks in the map, under their times. -/
def tasks (s : Scheduler F) : List (Time × Shared F) :=
  s.mapTasks.entries.map fun entry => (entry.1, entry.2.shared)

/-- The tasks of some entries that go back into the map, under their new times, when the clock has
been read `reads` times before. -/
def renewed (later : ℕ → Time) : ℕ → List (Time × Slot F) → List (Time × Shared F)
  | _, [] => []
  | reads, entry :: rest =>
      if entry.2.shared.task.bInterval then
        (entry.2.shared.task.getNextTime (later reads), entry.2.shared) ::
          renewed later (reads + 1) rest
      else renewed later reads rest

/-! ## What an operation does -/

theorem tasks_emplace (s : Scheduler F) (time : Time) (shared : Shared F) :
    (s.emplace time shared).tasks.Perm ((time, shared) :: s.tasks) :=
  (s.mapTasks.emplace_perm time ⟨s.emplaced, shared⟩).map _

theorem tasks_addTask (s : Scheduler F) (time : Time) (t : Task F) :
    (s.addTask time t).tasks.Perm ((time, ⟨s.made, t⟩) :: s.tasks) :=
  s.tasks_emplace time ⟨s.made, t⟩

/-- The emplacements at the end of `execNearestAndUpdate`. -/
theorem foldl_emplace (list : List (Time × Shared F)) (s : Scheduler F) :
    let last := list.foldl (fun s task => s.emplace task.1 task.2) s
    last.tasks.Perm (s.tasks ++ list) ∧ last.pushed = s.pushed ∧ last.made = s.made := by
  induction list generalizing s with
  | nil => simp
  | cons task rest ih =>
      obtain ⟨tasks, pushed, made⟩ := ih (s.emplace task.1 task.2)
      refine ⟨tasks.trans ?_, pushed, made⟩
      exact ((s.tasks_emplace task.1 task.2).append_right rest).trans List.perm_middle.symm

/-- The loop of `execNearestAndUpdate`. -/
theorem foldl_next (later : ℕ → Time) (entries : List (Time × Slot F)) (h : HandOver F) :
    let last := entries.foldl (HandOver.next later) h
    last.pushed = h.pushed ++ entries.map (fun entry => entry.2.shared.task.getFun) ∧
      last.everyTask.entries.Perm (h.everyTask.entries ++ renewed later h.reads entries) := by
  induction entries generalizing h with
  | nil => simp [renewed]
  | cons entry rest ih =>
      obtain ⟨pushed, everyTask⟩ := ih (h.next later entry)
      simp only [List.foldl_cons]
      by_cases interval : entry.2.shared.task.bInterval = true
      · simp only [HandOver.next, interval, if_true] at pushed everyTask ⊢
        refine ⟨by rw [pushed]; simp, everyTask.trans ?_⟩
        rw [renewed, if_pos interval]
        exact ((h.everyTask.emplace_perm _ _).append_right _).trans List.perm_middle.symm
      · simp only [HandOver.next, if_neg interval] at pushed everyTask ⊢
        refine ⟨by rw [pushed]; simp, ?_⟩
        rw [renewed, if_neg interval]
        exact everyTask

/-- **What `execNearestAndUpdate` does**: the tasks that are due are handed over, and those with
an interval go back. -/
theorem exec_spec (s : Scheduler F) (now : Time) (later : ℕ → Time) :
    let last := s.execNearestAndUpdate now later
    last.tasks.Perm ((s.mapTasks.above now).map (fun entry => (entry.1, entry.2.shared)) ++
      renewed later 0 (s.mapTasks.upTo now)) ∧
    last.pushed = s.pushed ++
      (s.mapTasks.upTo now).map (fun entry => entry.2.shared.task.getFun) ∧
    last.made = s.made := by
  unfold execNearestAndUpdate
  by_cases idle : s.mapTasks.upTo now = []
  · have all := s.mapTasks.upTo_append_above now
    rw [idle, List.nil_append] at all
    simp only [if_pos idle]
    rw [idle, all]
    exact ⟨by simp [renewed, tasks], by simp, trivial⟩
  · simp only [if_neg idle]
    obtain ⟨pushed, everyTask⟩ :=
      foldl_next later (s.mapTasks.upTo now) ⟨s.pushed, .empty, 0⟩
    obtain ⟨tasks, kept, made⟩ := foldl_emplace
      ((s.mapTasks.upTo now).foldl (HandOver.next later) ⟨s.pushed, .empty, 0⟩).everyTask.entries
      { s with
        mapTasks := s.mapTasks.eraseUpTo now
        pushed := ((s.mapTasks.upTo now).foldl (HandOver.next later) ⟨s.pushed, .empty, 0⟩).pushed }
    exact ⟨tasks.trans (everyTask.append_left _), kept.trans pushed, made⟩

/-- The functions of what is handed over are pushed into the pool. -/
theorem pushed_step (s : Scheduler F) (op : Op F) : (s.step op).pushed =
    s.pushed ++ (s.handed op).map fun entry => entry.2.shared.task.getFun := by
  cases op with
  | runAt tPoint f => simp [step, handed, runAt, addTask, emplace]
  | runAfter now dura f => simp [step, handed, runAfter, runAt, addTask, emplace]
  | runEvery now dura f => simp [step, handed, runEvery, addTask, emplace]
  | exec now later => exact (s.exec_spec now later).2.1

theorem pushed_run (s : Scheduler F) (ops : List (Op F)) : (s.run ops).pushed =
    s.pushed ++ (s.handedBy ops).flatten.map fun entry => entry.2.shared.task.getFun := by
  induction ops generalizing s with
  | nil => simp [run, handedBy]
  | cons op rest ih =>
      rw [run, List.foldl_cons, ← run, ih, pushed_step, handedBy, List.flatten_cons, List.map_append,
        List.append_assoc]

theorem handedBy_append (s : Scheduler F) (ops more : List (Op F)) :
    s.handedBy (ops ++ more) = s.handedBy ops ++ (s.run ops).handedBy more := by
  induction ops generalizing s with
  | nil => rfl
  | cons op rest ih => exact congrArg (s.handed op :: ·) (ih (s.step op))

/-! ## Tasks that go back -/

theorem renewed_append (later : ℕ → Time) (reads : ℕ) (front back : List (Time × Slot F)) :
    renewed later reads (front ++ back) = renewed later reads front ++
      renewed later (reads + front.countP fun entry => entry.2.shared.task.bInterval) back := by
  induction front generalizing reads with
  | nil => simp [renewed]
  | cons entry rest ih =>
      rw [List.cons_append, renewed, renewed, List.countP_cons, ih, ih]
      split_ifs with interval
      · rw [List.cons_append, Nat.add_assoc, Nat.add_comm 1]
      · rfl

theorem mem_renewed {later : ℕ → Time} {reads : ℕ} {entries : List (Time × Slot F)}
    {task : Time × Shared F} (member : task ∈ renewed later reads entries) :
    ∃ entry ∈ entries, entry.2.shared = task.2 ∧ task.2.task.bInterval = true := by
  induction entries generalizing reads with
  | nil => cases member
  | cons entry rest ih =>
      rw [renewed] at member
      split_ifs at member with interval
      · rcases List.mem_cons.mp member with rfl | among
        · exact ⟨entry, List.mem_cons_self, rfl, interval⟩
        · obtain ⟨other, present, same⟩ := ih among
          exact ⟨other, List.mem_cons_of_mem _ present, same⟩
      · obtain ⟨other, present, same⟩ := ih member
        exact ⟨other, List.mem_cons_of_mem _ present, same⟩

theorem renewed_sublist (later : ℕ → Time) (reads : ℕ) (entries : List (Time × Slot F)) :
    ((renewed later reads entries).map fun task => task.2.ptr).Sublist
      (entries.map fun entry => entry.2.shared.ptr) := by
  induction entries generalizing reads with
  | nil => exact List.Sublist.refl _
  | cons entry rest ih =>
      rw [renewed]
      split_ifs
      · exact (ih _).cons_cons _
      · exact (ih _).cons _

/-! ## The entries of the map -/

/-- The tasks of the map are different ones and old, and its entries stand in the order of their
times and emplacements. -/
structure Sound (s : Scheduler F) : Prop where
  distinct : (s.tasks.map fun task => task.2.ptr).Nodup
  old : ∀ task ∈ s.tasks, task.2.ptr < s.made
  ranked : s.mapTasks.Ranked Slot.serial
  earlier : ∀ entry ∈ s.mapTasks.entries, entry.2.serial < s.emplaced

theorem sound_init : Sound (init : Scheduler F) :=
  ⟨List.nodup_nil, nofun, List.Pairwise.nil, nofun⟩

/-- An emplacement keeps the order of the entries. -/
theorem emplace_ranked {s : Scheduler F} (ranked : s.mapTasks.Ranked Slot.serial)
    (earlier : ∀ entry ∈ s.mapTasks.entries, entry.2.serial < s.emplaced) (time : Time)
    (shared : Shared F) : (s.emplace time shared).mapTasks.Ranked Slot.serial ∧
      ∀ entry ∈ (s.emplace time shared).mapTasks.entries,
        entry.2.serial < (s.emplace time shared).emplaced := by
  refine ⟨OrderedMultimap.ranked_emplace ranked earlier, fun entry member => ?_⟩
  rcases List.mem_cons.mp ((s.mapTasks.emplace_perm _ _).subset member) with rfl | present
  · exact Nat.lt_succ_self _
  · exact (earlier entry present).trans (Nat.lt_succ_self _)

theorem foldl_emplace_ranked (list : List (Time × Shared F)) {s : Scheduler F}
    (ranked : s.mapTasks.Ranked Slot.serial)
    (earlier : ∀ entry ∈ s.mapTasks.entries, entry.2.serial < s.emplaced) :
    let last := list.foldl (fun s task => s.emplace task.1 task.2) s
    last.mapTasks.Ranked Slot.serial ∧ ∀ entry ∈ last.mapTasks.entries,
      entry.2.serial < last.emplaced := by
  induction list generalizing s with
  | nil => exact ⟨ranked, earlier⟩
  | cons task rest ih =>
      obtain ⟨ranked, earlier⟩ := emplace_ranked ranked earlier task.1 task.2
      exact ih ranked earlier

theorem Sound.addTask {s : Scheduler F} (sound : s.Sound) (time : Time) (t : Task F) :
    (s.addTask time t).Sound := by
  have tasks := s.tasks_addTask time t
  obtain ⟨ranked, earlier⟩ := emplace_ranked sound.ranked sound.earlier time ⟨s.made, t⟩
  refine ⟨?_, fun task member => ?_, ranked, earlier⟩
  · have fresh : s.made ∉ s.tasks.map fun task => task.2.ptr := by
      intro member
      obtain ⟨task, present, same⟩ := List.mem_map.mp member
      exact absurd same (sound.old task present).ne
    exact (tasks.map _).nodup_iff.mpr (List.nodup_cons.mpr ⟨fresh, sound.distinct⟩)
  · rcases List.mem_cons.mp (tasks.subset member) with rfl | present
    · exact Nat.lt_succ_self _
    · exact (sound.old task present).trans (Nat.lt_succ_self _)

/-- The pointers of the entries that are due, and of the others. -/
theorem ptrs_eq (s : Scheduler F) (now : Time) : (s.tasks.map fun task => task.2.ptr) =
    ((s.mapTasks.upTo now).map fun entry => entry.2.shared.ptr) ++
      (s.mapTasks.above now).map fun entry => entry.2.shared.ptr := by
  rw [tasks, ← s.mapTasks.upTo_append_above now]
  simp [Function.comp_def]

/-- No task comes into the map by being handed over. -/
theorem ptrs_exec (s : Scheduler F) (now : Time) (later : ℕ → Time) :
    ((s.execNearestAndUpdate now later).tasks.map fun task => task.2.ptr).Subperm
      (s.tasks.map fun task => task.2.ptr) := by
  have among : (((s.mapTasks.above now).map (fun entry => (entry.1, entry.2.shared)) ++
      renewed later 0 (s.mapTasks.upTo now)).map fun task => task.2.ptr).Subperm
      (s.tasks.map fun task => task.2.ptr) := by
    rw [s.ptrs_eq now, List.map_append, List.map_map]
    refine List.Subperm.trans ?_ List.perm_append_comm.subperm
    exact ((List.Sublist.refl _).append (renewed_sublist later 0 _)).subperm
  exact ((s.exec_spec now later).1.map fun task => task.2.ptr).subperm.trans among

theorem Sound.exec {s : Scheduler F} (sound : s.Sound) (now : Time) (later : ℕ → Time) :
    (s.execNearestAndUpdate now later).Sound := by
  have within := s.ptrs_exec now later
  have made := (s.exec_spec now later).2.2
  have order : (s.execNearestAndUpdate now later).mapTasks.Ranked Slot.serial ∧
      ∀ entry ∈ (s.execNearestAndUpdate now later).mapTasks.entries,
        entry.2.serial < (s.execNearestAndUpdate now later).emplaced := by
    unfold execNearestAndUpdate
    by_cases idle : s.mapTasks.upTo now = []
    · simp only [if_pos idle]
      exact ⟨sound.ranked, sound.earlier⟩
    · simp only [if_neg idle]
      refine foldl_emplace_ranked _ (OrderedMultimap.ranked_eraseUpTo sound.ranked now) ?_
      intro entry member
      exact sound.earlier entry (s.mapTasks.mem_above.mp member).1
  refine ⟨?_, fun task member => ?_, order.1, order.2⟩
  · obtain ⟨list, perm, sublist⟩ := within
    exact perm.nodup_iff.mp (sound.distinct.sublist sublist)
  · obtain ⟨other, present, same⟩ :=
      List.mem_map.mp (within.subset (List.mem_map_of_mem (f := fun task => task.2.ptr) member))
    rw [made, ← same]
    exact sound.old other present

theorem Sound.step {s : Scheduler F} (sound : s.Sound) (op : Op F) : (s.step op).Sound := by
  cases op with
  | runAt tPoint f => exact sound.addTask _ _
  | runAfter now dura f => exact sound.addTask _ _
  | runEvery now dura f => exact sound.addTask _ _
  | exec now later => exact sound.exec now later

theorem Sound.run {s : Scheduler F} (sound : s.Sound) (ops : List (Op F)) : (s.run ops).Sound := by
  induction ops generalizing s with
  | nil => exact sound
  | cons op rest ih => exact ih (sound.step op)

/-! ## A task in the map -/

/-- How often a task occurs in some entries. -/
def countOf (p : ℕ) (entries : List (Time × Slot F)) : ℕ :=
  (entries.map fun entry => entry.2.shared.ptr).count p

/-- A task that was made, and is not in the map. -/
def Gone (s : Scheduler F) (p : ℕ) : Prop := p < s.made ∧ p ∉ s.tasks.map fun task => task.2.ptr

/-- The task that an operation makes, and its time. -/
def Op.added : Op F → Option (Time × Task F)
  | .runAt tPoint f => some (tPoint, .taskAt f)
  | .runAfter now dura f => some (now + dura, .taskAt f)
  | .runEvery now dura f => some (now + dura, .taskEvery dura f)
  | .exec _ _ => none

theorem step_added {op : Op F} {time : Time} {t : Task F} (added : op.added = some (time, t))
    (s : Scheduler F) : s.step op = s.addTask time t ∧ s.handed op = [] := by
  cases op with
  | exec now later => cases added
  | runAt tPoint f =>
      cases added
      exact ⟨rfl, rfl⟩
  | runAfter now dura f =>
      cases added
      exact ⟨rfl, rfl⟩
  | runEvery now dura f =>
      cases added
      exact ⟨rfl, rfl⟩

theorem added_or_exec (op : Op F) :
    (∃ time t, op.added = some (time, t)) ∨ ∃ now later, op = .exec now later := by
  cases op with
  | exec now later => exact .inr ⟨now, later, rfl⟩
  | _ => exact .inl ⟨_, _, rfl⟩

section Entries

variable {s : Scheduler F}

theorem handed_subset (s : Scheduler F) (op : Op F) : s.handed op ⊆ s.mapTasks.entries := by
  cases op with
  | exec now later => exact fun entry member => (s.mapTasks.mem_upTo.mp member).1
  | _ => exact List.nil_subset _

theorem mem_tasks {entry : Time × Slot F} (member : entry ∈ s.mapTasks.entries) :
    (entry.1, entry.2.shared) ∈ s.tasks := List.mem_map_of_mem member

theorem exists_entry {time : Time} {shared : Shared F} (member : (time, shared) ∈ s.tasks) :
    ∃ entry ∈ s.mapTasks.entries, entry.1 = time ∧ entry.2.shared = shared := by
  obtain ⟨entry, present, same⟩ := List.mem_map.mp member
  exact ⟨entry, present, congrArg Prod.fst same, congrArg Prod.snd same⟩

/-- The entries of a sound scheduler have different pointers. -/
theorem Sound.unique (sound : s.Sound) {one other : Time × Slot F}
    (first : one ∈ s.mapTasks.entries) (second : other ∈ s.mapTasks.entries)
    (same : one.2.shared.ptr = other.2.shared.ptr) : one = other := by
  have distinct := sound.distinct
  rw [tasks, List.map_map] at distinct
  exact List.inj_on_of_nodup_map distinct first second same

/-- What has been handed over does not go back without an interval. -/
theorem gone_of_handed (sound : s.Sound) {now : Time} {entry : Time × Slot F}
    (due : entry ∈ s.mapTasks.upTo now) (once : entry.2.shared.task.bInterval = false)
    (later : ℕ → Time) : (s.execNearestAndUpdate now later).Gone entry.2.shared.ptr := by
  obtain ⟨tasks, -, made⟩ := s.exec_spec now later
  obtain ⟨present, -⟩ := s.mapTasks.mem_upTo.mp due
  refine ⟨by rw [made]; exact sound.old _ (List.mem_map_of_mem present), fun member => ?_⟩
  obtain ⟨task, among, same⟩ := List.mem_map.mp member
  rcases List.mem_append.mp (tasks.subset among) with kept | back
  · obtain ⟨other, high, rfl⟩ := List.mem_map.mp kept
    obtain ⟨still, after⟩ := s.mapTasks.mem_above.mp high
    rw [sound.unique still present same] at after
    exact absurd (s.mapTasks.le_of_mem_upTo due) (not_le.mpr after)
  · obtain ⟨other, low, shared, interval⟩ := mem_renewed back
    rw [← shared] at same interval
    rw [sound.unique (s.mapTasks.mem_upTo.mp low).1 present same, once] at interval
    cases interval

theorem Gone.countOf {p : ℕ} (gone : s.Gone p) (op : Op F) :
    Scheduler.countOf p (s.handed op) = 0 := by
  refine List.count_eq_zero.mpr fun member => ?_
  obtain ⟨entry, among, same⟩ := List.mem_map.mp member
  exact gone.2 (List.mem_map.mpr ⟨_, List.mem_map_of_mem (handed_subset s op among), same⟩)

theorem Gone.step {p : ℕ} (gone : s.Gone p) (op : Op F) : (s.step op).Gone p := by
  rcases added_or_exec op with ⟨time, t, added⟩ | ⟨now, later, rfl⟩
  · rw [(step_added added s).1]
    refine ⟨gone.1.trans (Nat.lt_succ_self _), fun member => ?_⟩
    obtain ⟨task, among, same⟩ := List.mem_map.mp member
    rcases List.mem_cons.mp ((s.tasks_addTask time t).subset among) with rfl | present
    · exact absurd same gone.1.ne'
    · exact gone.2 (List.mem_map.mpr ⟨task, present, same⟩)
  · exact ⟨by rw [Scheduler.step, (s.exec_spec now later).2.2]; exact gone.1,
      fun member => gone.2 ((s.ptrs_exec now later).subset member)⟩

/-- The next `execNearestAndUpdate` that finds a task due is told from its reading of the clock. -/
def Op.reaches (time : Time) : Op F → Bool
  | .exec now _ => time ≤ now
  | _ => false

omit s in
theorem exec_of_reaches {time : Time} {op : Op F} (reached : op.reaches time = true) :
    ∃ now later, op = .exec now later ∧ time ≤ now := by
  cases op with
  | exec now later => exact ⟨now, later, rfl, of_decide_eq_true reached⟩
  | _ => cases reached

/-- How often each operation hands over a task: once by the first that reaches its time, and
never by the others. -/
def firstDue (time : Time) : List (Op F) → List ℕ
  | [] => []
  | op :: ops => if op.reaches time then 1 :: ops.map fun _ => 0 else 0 :: firstDue time ops

/-- The counts of a task, for each operation of a run. -/
def counts (s : Scheduler F) (p : ℕ) (ops : List (Op F)) : List ℕ := (s.handedBy ops).map (countOf p)

theorem Gone.counts {p : ℕ} (gone : s.Gone p) (ops : List (Op F)) :
    s.counts p ops = ops.map fun _ => 0 := by
  induction ops generalizing s with
  | nil => rfl
  | cons op rest ih =>
      rw [Scheduler.counts, handedBy, List.map_cons, List.map_cons, gone.countOf op]
      exact congrArg (0 :: ·) (ih (gone.step op))

/-- A task stays in the map until it is due. -/
theorem mem_step {time : Time} {shared : Shared F} (member : (time, shared) ∈ s.tasks) {op : Op F}
    (early : op.reaches time = false) : (time, shared) ∈ (s.step op).tasks := by
  rcases added_or_exec op with ⟨at', t, added⟩ | ⟨now, later, rfl⟩
  · rw [(step_added added s).1]
    exact (s.tasks_addTask at' t).symm.subset (List.mem_cons_of_mem _ member)
  · obtain ⟨entry, present, rfl, rfl⟩ := exists_entry member
    have after : now < entry.1 := by simpa [Op.reaches] using early
    refine (s.exec_spec now later).1.symm.subset (List.mem_append_left _ ?_)
    exact List.mem_map_of_mem (s.mapTasks.mem_above.mpr ⟨present, after⟩)

/-- **A one-shot task is handed over once**, by the first `execNearestAndUpdate` that reaches its
time. -/
theorem counts_taskAt (sound : s.Sound) {p : ℕ} {time : Time} {f : F}
    (member : (time, ⟨p, .taskAt f⟩) ∈ s.tasks) (ops : List (Op F)) :
    s.counts p ops = firstDue time ops := by
  induction ops generalizing s with
  | nil => rfl
  | cons op rest ih =>
      rw [counts, handedBy, List.map_cons, firstDue, ← counts]
      obtain ⟨entry, present, same, shared⟩ := exists_entry member
      have ptr : entry.2.shared.ptr = p := by rw [shared]
      cases reached : op.reaches time with
      | true =>
          obtain ⟨now, later, rfl, le⟩ := exec_of_reaches reached
          have due := s.mapTasks.mem_upTo.mpr ⟨present, same.trans_le le⟩
          have once : countOf p (s.handed (.exec now later)) = 1 := by
            have distinct := sound.distinct
            rw [s.ptrs_eq now] at distinct
            refine List.count_eq_one_of_mem distinct.of_append_left ?_
            exact List.mem_map.mpr ⟨entry, due, ptr⟩
          have gone := gone_of_handed sound due (by rw [shared]; rfl) later
          rw [ptr] at gone
          rw [once, if_pos rfl]
          exact congrArg (1 :: ·) (gone.counts rest)
      | false =>
          have none : countOf p (s.handed op) = 0 := by
            refine List.count_eq_zero.mpr fun among => ?_
            obtain ⟨other, due, twin⟩ := List.mem_map.mp among
            obtain rfl := sound.unique (handed_subset s op due) present (twin.trans ptr.symm)
            cases op with
            | exec now later =>
                have le := s.mapTasks.le_of_mem_upTo due
                have after : now < other.1 := by simpa [Op.reaches, same] using reached
                exact absurd le (not_le.mpr after)
            | _ => cases due
          rw [none, if_neg (by simp)]
          exact congrArg (0 :: ·) (ih (sound.step op) (mem_step member reached))

/-- A task is not handed over before it is made. -/
theorem counts_unmade (sound : s.Sound) {p : ℕ} (ops : List (Op F)) (unmade : (s.run ops).made ≤ p) :
    s.made ≤ p ∧ s.counts p ops = ops.map fun _ => 0 := by
  induction ops generalizing s with
  | nil => exact ⟨unmade, rfl⟩
  | cons op rest ih =>
      obtain ⟨still, none⟩ := ih (sound.step op) unmade
      have made : s.made ≤ p := by
        refine le_trans ?_ still
        rcases added_or_exec op with ⟨time, t, added⟩ | ⟨now, later, rfl⟩
        · rw [(step_added added s).1]
          exact Nat.le_succ _
        · exact (s.exec_spec now later).2.2.ge
      refine ⟨made, ?_⟩
      have first : countOf p (s.handed op) = 0 := by
        refine List.count_eq_zero.mpr fun member => ?_
        obtain ⟨entry, among, same⟩ := List.mem_map.mp member
        have old : entry.2.shared.ptr < s.made := sound.old _ (mem_tasks (handed_subset s op among))
        omega
      rw [counts, handedBy, List.map_cons, List.map_cons, first]
      exact congrArg (0 :: ·) none

/-- A task with an interval that is handed over goes back, its period after the clock was read. -/
theorem mem_exec {now : Time} {front back : List (Time × Slot F)} {entry : Time × Slot F}
    (due : s.mapTasks.upTo now = front ++ entry :: back) {dura : ℤ} {f : F}
    (interval : entry.2.shared.task = .taskEvery dura f) (later : ℕ → Time) :
    (later (front.countP fun entry => entry.2.shared.task.bInterval) + dura, entry.2.shared) ∈
      (s.execNearestAndUpdate now later).tasks := by
  refine (s.exec_spec now later).1.symm.subset (List.mem_append_right _ ?_)
  rw [due, renewed_append, Nat.zero_add, renewed, if_pos (by rw [interval]; rfl), interval]
  exact List.mem_append_right _ List.mem_cons_self

/-- A task with an interval stays in the map, under one time or another. -/
theorem mem_run_every {p : ℕ} {dura : ℤ} {f : F}
    (member : ∃ time, (time, ⟨p, .taskEvery dura f⟩) ∈ s.tasks) (ops : List (Op F)) :
    ∃ time, (time, ⟨p, .taskEvery dura f⟩) ∈ (s.run ops).tasks := by
  induction ops generalizing s with
  | nil => exact member
  | cons op rest ih =>
      refine ih ?_
      obtain ⟨time, present⟩ := member
      cases reached : op.reaches time with
      | false => exact ⟨time, mem_step present reached⟩
      | true =>
          obtain ⟨now, later, rfl, le⟩ := exec_of_reaches reached
          obtain ⟨entry, here, rfl, shared⟩ := exists_entry present
          obtain ⟨front, back, due⟩ := List.append_of_mem (s.mapTasks.mem_upTo.mpr ⟨here, le⟩)
          have again := mem_exec due (by rw [shared]) later
          rw [shared] at again
          exact ⟨_, again⟩

/-- A task in the map of a sound scheduler has one entry. -/
theorem Sound.countOf (sound : s.Sound) {time : Time} {shared : Shared F}
    (member : (time, shared) ∈ s.tasks) :
    Scheduler.countOf shared.ptr s.mapTasks.entries = 1 := by
  obtain ⟨entry, present, -, rfl⟩ := exists_entry member
  have distinct := sound.distinct
  rw [tasks, List.map_map] at distinct
  exact List.count_eq_one_of_mem distinct (List.mem_map_of_mem present)

end Entries

/-! ## Runs -/

/-- What a run of operations on a new scheduler does to its tasks. -/
structure Dispatched (ops : List (Op F)) : Prop where
  /-- A one-shot task is handed over once, by the first operation that reaches its time. -/
  once : ∀ before op after time f, ops = before ++ op :: after →
    op.added = some (time, .taskAt f) →
    counts init (init.run before).made ops = (before.map fun _ => 0) ++ 0 :: firstDue time after
  /-- What is handed over in one step stands in the order of the times and emplacements. -/
  order : ∀ entries ∈ handedBy init ops, entries.Pairwise (OrderedMultimap.Precedes Slot.serial)
  /-- It is pushed into the thread pool in this order. -/
  pushed : (init.run ops).pushed =
    (handedBy init ops).flatten.map fun entry => entry.2.shared.task.getFun
  /-- A task with an interval has one entry. -/
  every : ∀ before op after time dura f, ops = before ++ op :: after →
    op.added = some (time, .taskEvery dura f) →
    (∃ time, (time, ⟨(init.run before).made, .taskEvery dura f⟩) ∈ (init.run ops).tasks) ∧
      countOf (init.run before).made (init.run ops).mapTasks.entries = 1
  /-- When it is handed over, it goes back under the time that is its period later. -/
  again : ∀ before now later after, ops = before ++ .exec now later :: after →
    ∀ front entry back dura f, (init.run before).mapTasks.upTo now = front ++ entry :: back →
      entry.2.shared.task = .taskEvery dura f →
      (later (front.countP fun entry => entry.2.shared.task.bInterval) + dura, entry.2.shared) ∈
        (init.run (before ++ [.exec now later])).tasks
  /-- Until then, a task keeps its time. -/
  kept : ∀ before op after, ops = before ++ op :: after → ∀ task ∈ (init.run before).tasks,
    op.reaches task.1 = false → task ∈ (init.run (before ++ [op])).tasks

theorem run_append (s : Scheduler F) (ops more : List (Op F)) :
    s.run (ops ++ more) = (s.run ops).run more := List.foldl_append

theorem handedBy_ordered {s : Scheduler F} (sound : s.Sound) (ops : List (Op F)) :
    ∀ entries ∈ s.handedBy ops, entries.Pairwise (OrderedMultimap.Precedes Slot.serial) := by
  induction ops generalizing s with
  | nil => exact nofun
  | cons op rest ih =>
      intro entries member
      rcases List.mem_cons.mp member with rfl | among
      · cases op with
        | exec now later => exact OrderedMultimap.ranked_upTo sound.ranked now
        | _ => exact List.Pairwise.nil
      · exact ih (sound.step op) entries among

/-- The operation that makes a task puts it into the map. -/
theorem mem_added {op : Op F} {time : Time} {t : Task F} (added : op.added = some (time, t))
    (s : Scheduler F) : (time, ⟨s.made, t⟩) ∈ (s.step op).tasks := by
  rw [(step_added added s).1]
  exact (s.tasks_addTask time t).symm.subset List.mem_cons_self

/-- **Every task is handed over when it is due**: a one-shot task once, by the first
`execNearestAndUpdate` that reaches its time, and a task with an interval again and again. -/
theorem tasks_dispatched (ops : List (Op F)) : Dispatched ops := by
  refine ⟨?_, handedBy_ordered sound_init ops, ?_, ?_, ?_, ?_⟩
  · rintro before op after time f rfl added
    have sound : (init.run before).Sound := sound_init.run before
    have early := (counts_unmade sound_init before (le_refl (init.run before).made)).2
    have none : (init.run before).handed op = [] := (step_added added _).2
    have late := counts_taskAt (sound.step op) (mem_added added (init.run before)) after
    rw [counts, handedBy_append, List.map_append, ← counts, early, handedBy, List.map_cons, none,
      ← late]
    rfl
  · rw [pushed_run]
    rfl
  · rintro before op after time dura f rfl added
    rw [run_append]
    have stays := mem_run_every ⟨time, mem_added added (init.run before)⟩ after
    obtain ⟨last, member⟩ := stays
    have sound : ((init.run before).run (op :: after)).Sound := (sound_init.run before).run _
    exact ⟨⟨last, member⟩, sound.countOf member⟩
  · rintro before now later after rfl front entry back dura f due interval
    rw [run_append]
    exact mem_exec due interval later
  · rintro before op after rfl task member early
    rw [run_append]
    exact mem_step member early

end Scheduler

end Handy.Xy
