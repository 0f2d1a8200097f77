import Handy.Codec
import Handy.EventBase.Wakeup
import Handy.Lib.RoundRobin

/-!
# The server and its event bases

`TcpServer::handleAccept` runs in the loop thread of the base that listens. It gives each accepted
descriptor to a base of its `EventBases`: it attaches the descriptor itself when that base is its
own, and posts a task with `safeCall` otherwise. `MultiBase::allocBase` counts its calls with an
`int` and takes the bases in turn.

Descriptors are named by the call of `accept` that returned them. The bases of a `MultiBase` have
task queues without a limit. A descriptor whose names cannot be read is neither used nor closed.

At any time the descriptors given to a base are those that were attached there followed by those
that wait in its queue, in order (`TcpServer.attached_in_order`). While the counter has not
overflowed the bases get equal shares of those that are given (`TcpServer.bases_share`); they are taken in turn for ever
exactly if their number divides 2^32 (`MultiBase.turns_iff`).
-/

set_option autoImplicit false

namespace Handy

/-! ## `MultiBase` -/

namespace MultiBase

variable {sz : ℕ}

/-- `allocBase`: the index that the call with this number computes, `c % bases_.size()` with an
`int` that is converted to `size_t`. -/
def allocBase (sz id : ℕ) : ℕ := (toInt32 id % 2 ^ 64).toNat % sz

/-- Before the counter overflows the bases take turns. -/
theorem allocBase_eq {id : ℕ} (small : id < 2 ^ 31) : allocBase sz id = id % sz := by
  rw [allocBase, toInt32_eq small, Int.emod_eq_of_lt (by omega) (by omega), Int.toNat_natCast]

/-- A number of bases that divides 2^32 does not notice the overflow. -/
theorem allocBase_eq_of_dvd (divides : sz ∣ 2 ^ 32) (id : ℕ) : allocBase sz id = id % sz := by
  have whole : (sz : ℤ) ∣ 2 ^ 32 := by exact_mod_cast divides
  have folded : toInt32 id % 2 ^ 32 = (id : ℤ) % 2 ^ 32 := by
    have bmod : toInt32 id % ((2 ^ 32 : ℕ) : ℤ) = id % ((2 ^ 32 : ℕ) : ℤ) := Int.bmod_emod
    simpa using bmod
  have nonneg : 0 ≤ toInt32 id % 2 ^ 64 := Int.emod_nonneg _ (by decide)
  have same : ((allocBase sz id : ℕ) : ℤ) = ((id % sz : ℕ) : ℤ) := by
    calc ((allocBase sz id : ℕ) : ℤ) = toInt32 id % 2 ^ 64 % sz := by
          rw [allocBase, Int.natCast_emod, Int.toNat_of_nonneg nonneg]
      _ = toInt32 id % sz := Int.emod_emod_of_dvd _ (whole.trans (by decide))
      _ = toInt32 id % 2 ^ 32 % sz := (Int.emod_emod_of_dvd _ whole).symm
      _ = (id : ℤ) % 2 ^ 32 % sz := by rw [folded]
      _ = ((id % sz : ℕ) : ℤ) := by rw [Int.emod_emod_of_dvd _ whole, Int.natCast_emod]
  exact_mod_cast same

/-- **The bases are taken in turn for ever exactly if their number divides 2^32**: otherwise the
turns are interrupted where the counter becomes negative, or where it becomes zero again. -/
theorem turns_iff :
    (∀ id, allocBase sz (id + 1) = (allocBase sz id + 1) % sz) ↔ sz ∣ 2 ^ 32 := by
  constructor
  · intro turns
    have negative : (2 ^ 64 - 2 ^ 31) % sz = 2 ^ 31 % sz := by
      have turn := turns (2 ^ 31 - 1)
      have here : allocBase sz (2 ^ 31 - 1) = (2 ^ 31 - 1) % sz := allocBase_eq (by decide)
      rw [here, Nat.mod_add_mod] at turn
      exact turn
    have zero : 0 = 2 ^ 64 % sz := by
      have turn := turns (2 ^ 32 - 1)
      have here : allocBase sz (2 ^ 32 - 1) = (2 ^ 64 - 1) % sz := rfl
      rw [here, Nat.mod_add_mod] at turn
      exact (Nat.zero_mod sz).symm.trans turn
    have gap : sz ∣ (2 ^ 64 - 2 ^ 31) - 2 ^ 31 :=
      (Nat.modEq_iff_dvd' (by decide)).mp negative.symm
    have all : sz ∣ 2 ^ 64 := Nat.dvd_of_mod_eq_zero zero.symm
    exact (Nat.dvd_add_right gap).mp all
  · intro divides id
    rw [allocBase_eq_of_dvd divides, allocBase_eq_of_dvd divides, Nat.mod_add_mod]

end MultiBase

/-! ## The server -/

/-- The server: bases `ι`, accepted descriptors `δ` and other tasks `ρ`. `id` counts the calls of
`allocBase`, and `calling` is the `safeCall` that `handleAccept` is in. The last fields record which
descriptors were given to which base, which were attached, and which were left alone. -/
structure TcpServer (ι δ ρ : Type) where
  base : ι
  id : ℕ
  bases : ι → Wakeup (δ ⊕ ρ)
  calling : Option (ι × δ)
  given : List (δ × ι)
  attached : List (δ × ι)
  abandoned : List δ

namespace TcpServer

variable {ι δ ρ : Type}

/-- The server when it is made, after so many calls of `allocBase`. -/
def init (alloc : ℕ → ι) (id : ℕ) : TcpServer ι δ ρ :=
  ⟨alloc id, id + 1, fun _ => .init, none, [], [], []⟩

/-- Another call of `accept`. -/
def Fresh (server : TcpServer ι δ ρ) (d : δ) : Prop :=
  d ∉ server.given.map Prod.fst ∧ d ∉ server.abandoned

/-- The posts and writes of a base that carry no descriptor. -/
def Foreign : Wakeup.Label (δ ⊕ ρ) → Prop
  | .post (some (.inl _)) | .write (some (.inl _)) | .selfPost (some (.inl _)) => False
  | _ => True

/-- The step is one of another thread than the loop thread. -/
def External : Wakeup.Label (δ ⊕ ρ) → Prop
  | .post _ | .write _ => True
  | _ => False

/-- The steps of the server. -/
inductive Label (ι δ ρ : Type) where
  | accept (d : δ)
  | safeCall
  | abandon (d : δ)
  | allocBase
  | base (i : ι) (label : Wakeup.Label (δ ⊕ ρ))

variable [DecidableEq ι] [DecidableEq δ] [DecidableEq ρ]

/-- A step of the server, where `allocBase` hands out the bases and a pipe has some capacity. -/
inductive Step (alloc : ℕ → ι) (capacity : ℕ) (server : TcpServer ι δ ρ) :
    Label ι δ ρ → TcpServer ι δ ρ → Prop where
  -- `handleAccept`, which is a callback of the listening base
  /-- The descriptor goes to the listening base: `addcon();` -/
  | acceptOwn {d : δ} (here : (server.bases server.base).loop = .user .callback)
      (free : server.calling = none) (fresh : server.Fresh d)
      (own : alloc server.id = server.base) :
      Step alloc capacity server (.accept d) { server with
        id := server.id + 1
        given := server.given ++ [(d, server.base)]
        attached := server.attached ++ [(d, server.base)] }
  /-- It goes to another one: the push of `b->safeCall(move(addcon));` -/
  | acceptOther {d : δ} {base : Wakeup (δ ⊕ ρ)}
      (here : (server.bases server.base).loop = .user .callback)
      (free : server.calling = none) (fresh : server.Fresh d)
      (other : alloc server.id ≠ server.base)
      (step : Wakeup.Step 0 capacity (server.bases (alloc server.id)) (.post (some (.inl d))) base) :
      Step alloc capacity server (.accept d) { server with
        id := server.id + 1
        bases := Function.update server.bases (alloc server.id) base
        calling := some (alloc server.id, d)
        given := server.given ++ [(d, alloc server.id)] }
  /-- The write of `safeCall`. -/
  | safeCall {i : ι} {d : δ} {base : Wakeup (δ ⊕ ρ)} (busy : server.calling = some (i, d))
      (step : Wakeup.Step 0 capacity (server.bases i) (.write (some (.inl d))) base) :
      Step alloc capacity server .safeCall { server with
        bases := Function.update server.bases i base, calling := none }
  /-- `getpeername` or `getsockname` fails, and the loop goes on. -/
  | abandon {d : δ} (here : (server.bases server.base).loop = .user .callback)
      (free : server.calling = none) (fresh : server.Fresh d) :
      Step alloc capacity server (.abandon d) { server with
        abandoned := server.abandoned ++ [d] }
  -- the rest of the program
  /-- Another server or connection calls `allocBase`. -/
  | allocBase : Step alloc capacity server .allocBase { server with id := server.id + 1 }
  /-- The loop thread of a base runs `addcon`. -/
  | attach {i : ι} {d : δ} {base : Wakeup (δ ⊕ ρ)}
      (here : (server.bases i).loop = .user (.task (.inl d)))
      (step : Wakeup.Step 0 capacity (server.bases i) .loop base) :
      Step alloc capacity server (.base i .loop) { server with
        bases := Function.update server.bases i base
        attached := server.attached ++ [(d, i)] }
  /-- What else an event base does; the listening thread is busy while it is in `safeCall`. -/
  | base {i : ι} {label : Wakeup.Label (δ ⊕ ρ)} {base : Wakeup (δ ⊕ ρ)} (foreign : Foreign label)
      (waits : i = server.base → server.calling = none ∨ External label)
      (step : Wakeup.Step 0 capacity (server.bases i) label base)
      (other : ∀ d, label = .loop → (server.bases i).loop ≠ .user (.task (.inl d))) :
      Step alloc capacity server (.base i label) { server with
        bases := Function.update server.bases i base }

variable {alloc : ℕ → ι} {capacity : ℕ} {server after : TcpServer ι δ ρ} {label : Label ι δ ρ}

/-! ## What waits at a base -/

/-- The descriptors of some tasks. -/
def descriptors (tasks : List (δ ⊕ ρ)) : List δ := tasks.filterMap Sum.getLeft?

/-- The descriptors that a base has in its hands or in its queue. -/
def pending (server : TcpServer ι δ ρ) (i : ι) : List δ :=
  descriptors ((server.bases i).loop.task.toList ++ (server.bases i).tasks)

/-- The descriptors that a record has for a base. -/
def share (record : List (δ × ι)) (i : ι) : List δ := (record.filter (·.2 = i)).map Prod.fst

omit [DecidableEq ι] [DecidableEq δ] [DecidableEq ρ] in
@[simp] theorem descriptors_append (tasks more : List (δ ⊕ ρ)) :
    descriptors (tasks ++ more) = descriptors tasks ++ descriptors more := List.filterMap_append

omit [DecidableEq δ] [DecidableEq ρ] in
theorem share_self (record : List (δ × ι)) (d : δ) (i : ι) :
    share (record ++ [(d, i)]) i = share record i ++ [d] := by
  simp [share]

omit [DecidableEq δ] [DecidableEq ρ] in
theorem share_of_ne (record : List (δ × ι)) (d : δ) {i j : ι} (ne : i ≠ j) :
    share (record ++ [(d, j)]) i = share record i := by
  simp [share, Ne.symm ne]

/-! ## What the steps do to the bases -/

section Bases

variable {base next : Wakeup (δ ⊕ ρ)}

omit [DecidableEq δ] [DecidableEq ρ] in
/-- A push without a descriptor. -/
theorem push_foreign {call : Option (δ ⊕ ρ)} (foreign : ∀ d, call ≠ some (.inl d)) :
    descriptors (base.push 0 call).accepted = descriptors base.accepted ∧
      (base.push 0 call).executed = base.executed := by
  fun_cases Wakeup.push 0 base call with
  | case1 => exact ⟨rfl, rfl⟩
  | case2 t full => exact absurd rfl full.1
  | case3 t space =>
      refine ⟨?_, rfl⟩
      cases t with
      | inl d => exact absurd rfl (foreign d)
      | inr r => simp [descriptors]

/-- Other steps post and finish no descriptor. -/
theorem foreign_step {label : Wakeup.Label (δ ⊕ ρ)} (foreign : Foreign label)
    (step : Wakeup.Step 0 capacity base label next)
    (other : ∀ d, label = .loop → base.loop ≠ .user (.task (.inl d))) :
    descriptors next.accepted = descriptors base.accepted ∧
      descriptors next.executed = descriptors base.executed := by
  cases step with
  | @post call _ | @selfPost code call _ _ =>
      have apart : ∀ d, call ≠ some (.inl d) := by
        rintro d rfl
        exact foreign
      have pushed : descriptors (base.push 0 call).accepted = descriptors base.accepted ∧
        (base.push 0 call).executed = base.executed := push_foreign apart
      exact ⟨pushed.1, congrArg descriptors pushed.2⟩
  | @taskEnd t here =>
      cases t with
      | inl d => exact absurd here (other d rfl)
      | inr r => exact ⟨rfl, by simp [descriptors]⟩
  | write _ _ | selfWrite _ _ | poll _ _ | callback _ | callbackEnd _ | roundEnd _ _ | handle _ _
  | read _ _ | interrupted _ | readFails _ _ | pop _ _ | drained _ _ => exact ⟨rfl, rfl⟩

/-- `safeCall` posts a descriptor. -/
theorem post_step {d : δ} (step : Wakeup.Step 0 capacity base (.post (some (.inl d))) next) :
    descriptors next.accepted = descriptors base.accepted ++ [d] ∧ next.executed = base.executed := by
  cases step with
  | post fresh => exact ⟨by simp [Wakeup.push, descriptors], rfl⟩

theorem write_step {call : Option (δ ⊕ ρ)} (step : Wakeup.Step 0 capacity base (.write call) next) :
    next.accepted = base.accepted ∧ next.executed = base.executed := by
  cases step
  exact ⟨rfl, rfl⟩

/-- A loop thread finishes the task that it runs. -/
theorem attach_step {d : δ} (here : base.loop = .user (.task (.inl d)))
    (step : Wakeup.Step 0 capacity base .loop next) :
    next.accepted = base.accepted ∧ descriptors next.executed = descriptors base.executed ++ [d] := by
  cases step with
  | taskEnd there =>
      rw [here] at there
      cases there
      exact ⟨rfl, by simp [descriptors]⟩
  | poll there _ | callback there | callbackEnd there | roundEnd there _ | handle there _
  | read there _ | interrupted there | readFails there _ | pop there _ | drained there _ =>
      rw [here] at there
      cases there

end Bases

/-! ## The invariant -/

/-- What is given to another base is posted there, and attached when the task has run; the
listening base attaches at once. -/
structure Served (server : TcpServer ι δ ρ) : Prop where
  sound : ∀ i, (server.bases i).Sound
  posted : ∀ i, i ≠ server.base → descriptors (server.bases i).accepted = share server.given i
  ran : ∀ i, i ≠ server.base → descriptors (server.bases i).executed = share server.attached i
  own : share server.attached server.base = share server.given server.base
  unposted : descriptors (server.bases server.base).accepted = []
  distinct : (server.given.map Prod.fst).Nodup

omit [DecidableEq δ] [DecidableEq ρ] in
/-- A base without descriptors runs none. -/
theorem Served.runs_none (served : server.Served) {d : δ} :
    (server.bases server.base).loop ≠ .user (.task (.inl d)) := by
  intro here
  have conserved := (served.sound server.base).conserved
  have held : (server.bases server.base).work.held () = some (.inl d) := by
    simp [Wakeup.work, here, LoopPlace.task]
  have taken : .inl d ∈ (server.bases server.base).dequeued :=
    (conserved.gone (.inl d)).mpr (.inr ⟨(), held⟩)
  have order : (server.bases server.base).accepted =
      (server.bases server.base).dequeued ++ (server.bases server.base).tasks := conserved.order
  have posted : d ∈ descriptors (server.bases server.base).accepted := by
    rw [order]
    exact List.mem_filterMap.mpr ⟨.inl d, List.mem_append_left _ taken, rfl⟩
  rw [served.unposted] at posted
  cases posted

omit [DecidableEq δ] [DecidableEq ρ] in
theorem served_init (alloc : ℕ → ι) (id : ℕ) : (init alloc id : TcpServer ι δ ρ).Served where
  sound _ := Wakeup.sound_init
  posted _ _ := rfl
  ran _ _ := rfl
  own := rfl
  unposted := rfl
  distinct := List.nodup_nil

omit [DecidableEq ι] [DecidableEq δ] [DecidableEq ρ] in
theorem distinct_accept {record : List (δ × ι)} (distinct : (record.map Prod.fst).Nodup) {d : δ}
    (fresh : d ∉ record.map Prod.fst) (i : ι) : ((record ++ [(d, i)]).map Prod.fst).Nodup := by
  rw [List.map_append, List.nodup_append]
  refine ⟨distinct, List.nodup_singleton _, ?_⟩
  rintro e member _ last rfl
  have same : e = d := by simpa using last
  exact fresh (same ▸ member)

/-- The queue and the pipe of a base hold what they should after its steps. -/
theorem Served.sound_update (served : server.Served) {i : ι} {label : Wakeup.Label (δ ⊕ ρ)}
    {base : Wakeup (δ ⊕ ρ)} (step : Wakeup.Step 0 capacity (server.bases i) label base) (j : ι) :
    (Function.update server.bases i base j).Sound := by
  by_cases here : j = i
  · rw [here, Function.update_self]
    exact (served.sound i).step step
  · rw [Function.update_of_ne here]
    exact served.sound j

/-- A base takes a step that is about no descriptor. -/
theorem Served.update (served : server.Served) {i : ι} {label : Wakeup.Label (δ ⊕ ρ)}
    {base : Wakeup (δ ⊕ ρ)} (step : Wakeup.Step 0 capacity (server.bases i) label base)
    (accepted : descriptors base.accepted = descriptors (server.bases i).accepted)
    (executed : descriptors base.executed = descriptors (server.bases i).executed)
    (calling : Option (ι × δ)) :
    { server with bases := Function.update server.bases i base, calling := calling }.Served := by
  have same : ∀ j, descriptors (Function.update server.bases i base j).accepted =
        descriptors (server.bases j).accepted ∧
      descriptors (Function.update server.bases i base j).executed =
        descriptors (server.bases j).executed := by
    intro j
    by_cases here : j = i
    · subst here
      rw [Function.update_self]
      exact ⟨accepted, executed⟩
    · rw [Function.update_of_ne here]
      exact ⟨rfl, rfl⟩
  refine ⟨served.sound_update step, fun j other => ?_, fun j other => ?_, served.own, ?_,
    served.distinct⟩
  · exact (same j).1.trans (served.posted j other)
  · exact (same j).2.trans (served.ran j other)
  · exact (same server.base).1.trans served.unposted

/-- **Every step keeps the accounts of the bases.** -/
theorem served_step (served : server.Served) (step : Step alloc capacity server label after) :
    after.Served := by
  cases step with
  | @acceptOwn d here free fresh own =>
      refine ⟨served.sound, fun i other => ?_, fun i other => ?_, ?_, served.unposted,
        distinct_accept served.distinct fresh.1 _⟩
      · rw [share_of_ne _ _ other]
        exact served.posted i other
      · rw [share_of_ne _ _ other]
        exact served.ran i other
      · rw [share_self, share_self, served.own]
  | @acceptOther d base here free fresh other step =>
      obtain ⟨accepted, executed⟩ := post_step step
      refine ⟨served.sound_update step, fun i elsewhere => ?_, fun i elsewhere => ?_, ?_, ?_,
        distinct_accept served.distinct fresh.1 _⟩
      · show descriptors (Function.update server.bases (alloc server.id) base i).accepted = _
        by_cases same : i = alloc server.id
        · rw [same, Function.update_self, share_self, accepted, served.posted _ other]
        · rw [Function.update_of_ne same, share_of_ne _ _ same]
          exact served.posted i elsewhere
      · show descriptors (Function.update server.bases (alloc server.id) base i).executed = _
        by_cases same : i = alloc server.id
        · rw [same, Function.update_self, executed]
          exact served.ran _ other
        · rw [Function.update_of_ne same]
          exact served.ran i elsewhere
      · rw [share_of_ne _ _ other.symm]
        exact served.own
      · show descriptors (Function.update server.bases (alloc server.id) base server.base).accepted = []
        rw [Function.update_of_ne other.symm]
        exact served.unposted
  | @safeCall i d base busy step =>
      obtain ⟨accepted, executed⟩ := write_step step
      exact served.update step (by rw [accepted]) (by rw [executed]) none
  | abandon _ _ _ =>
      exact ⟨served.sound, served.posted, served.ran, served.own, served.unposted, served.distinct⟩
  | allocBase =>
      exact ⟨served.sound, served.posted, served.ran, served.own, served.unposted, served.distinct⟩
  | @attach i d base here step =>
      obtain ⟨accepted, executed⟩ := attach_step here step
      have elsewhere : i ≠ server.base := by
        rintro rfl
        exact served.runs_none here
      refine ⟨served.sound_update step, fun j other => ?_, fun j other => ?_, ?_, ?_, served.distinct⟩
      · show descriptors (Function.update server.bases i base j).accepted = _
        by_cases same : j = i
        · rw [same, Function.update_self, accepted]
          exact served.posted i elsewhere
        · rw [Function.update_of_ne same]
          exact served.posted j other
      · show descriptors (Function.update server.bases i base j).executed = _
        by_cases same : j = i
        · rw [same, Function.update_self, share_self, executed, served.ran i elsewhere]
        · rw [Function.update_of_ne same, share_of_ne _ _ same]
          exact served.ran j other
      · rw [share_of_ne _ _ elsewhere.symm]
        exact served.own
      · show descriptors (Function.update server.bases i base server.base).accepted = []
        rw [Function.update_of_ne elsewhere.symm]
        exact served.unposted
  | base foreign waits step other =>
      obtain ⟨accepted, executed⟩ := foreign_step foreign step other
      exact served.update step accepted executed _

/-! ## Descriptors are attached once and in order -/

/-- **Every accepted descriptor is attached once, on its base and in order**: in every run, whatever
the loop threads, the listening thread and others do, the descriptors given to a base are those that
were attached there followed by those in its hands and in its queue, in the order in which they were
accepted; none is given twice; none of the listening base has to wait; and a base that sleeps in the
poller while descriptors wait will be woken. -/
theorem attached_in_order {id : ℕ} {labels : List (Label ι δ ρ)}
    (run : LabelledRun (Step alloc capacity) (init alloc id) labels server) :
    (server.given.map Prod.fst).Nodup ∧
    (∀ i, share server.given i = share server.attached i ++ server.pending i) ∧
    server.pending server.base = [] ∧
    (∀ i, (server.bases i).loop = .polling → server.pending i ≠ [] →
      0 < (server.bases i).bytes ∨ ∃ t, some t ∈ (server.bases i).posting) := by
  have served := run.invariant Served (fun _ _ _ => served_step) (served_init alloc id)
  have split : ∀ i, descriptors (server.bases i).accepted =
      descriptors (server.bases i).executed ++ server.pending i := by
    intro i
    have order : (server.bases i).accepted = (server.bases i).dequeued ++ (server.bases i).tasks :=
      (served.sound i).conserved.order
    have sequential : (server.bases i).dequeued =
        (server.bases i).executed ++ (server.bases i).loop.task.toList := (served.sound i).sequential
    rw [order, sequential, pending, List.append_assoc, descriptors_append]
  have idle : server.pending server.base = [] := by
    have none := split server.base
    rw [served.unposted] at none
    exact (List.append_eq_nil_iff.mp none.symm).2
  refine ⟨served.distinct, fun i => ?_, idle, fun i here waiting => ?_⟩
  · by_cases own : i = server.base
    · rw [own, idle, List.append_nil, served.own]
    · rw [← served.posted i own, split i, served.ran i own]
  · have some_task : (server.bases i).tasks ≠ [] := by
      intro none
      refine waiting ?_
      rw [pending, none, here]
      rfl
    rcases (served.sound i).noticed some_task with written | posted | active
    · exact .inl written
    · exact .inr posted
    · rw [here] at active
      cases active

/-- Two bases get three descriptors: the listening base attaches one, and the other base has
attached one when the next has been posted to it. -/
theorem three_accepted : ∃ (server : TcpServer ℕ ℕ Empty) (labels : List (Label ℕ ℕ Empty)),
    server.given = [(5, 1), (6, 0), (7, 1)] ∧ server.attached = [(6, 0), (5, 1)] ∧
    server.id = 4 ∧ .allocBase ∉ labels ∧
    LabelledRun (Step (MultiBase.allocBase 2) 1) (init (MultiBase.allocBase 2) 0) labels server := by
  have starts : init (MultiBase.allocBase 2) 0 =
      (⟨0, 1, fun _ => .init, none, [], [], []⟩ : TcpServer ℕ ℕ Empty) := by
    rw [init, show MultiBase.allocBase 2 0 = 0 by decide]
  have wakes {base : Wakeup (ℕ ⊕ Empty)} {d : ℕ}
      (new : d ∉ descriptors (base.accepted ++ base.refused)) : base.Fresh (some (.inl d)) := by
    rintro t ⟨⟩
    have absent : Sum.inl d ∉ base.accepted ++ base.refused := fun member =>
      new (List.mem_filterMap.mpr ⟨_, member, rfl⟩)
    rwa [List.mem_append, not_or] at absent
  have loops {server : TcpServer ℕ ℕ Empty} {i : ℕ} {base : Wakeup (ℕ ⊕ Empty)}
      (waits : i = server.base → server.calling = none)
      (step : Wakeup.Step 0 1 (server.bases i) .loop base)
      (other : (server.bases i).loop.task = none) :
      Step (MultiBase.allocBase 2) 1 server (.base i .loop)
        { server with bases := Function.update server.bases i base } := by
    refine .base trivial (fun own => .inl (waits own)) step fun d _ here => ?_
    rw [here] at other
    cases other
  have posts {server : TcpServer ℕ ℕ Empty} {d i : ℕ} {base : Wakeup (ℕ ⊕ Empty)}
      (here : (server.bases server.base).loop = .user .callback) (free : server.calling = none)
      (fresh : server.Fresh d) (turn : MultiBase.allocBase 2 server.id = i) (other : i ≠ server.base)
      (step : Wakeup.Step 0 1 (server.bases i) (.post (some (.inl d))) base) :
      Step (MultiBase.allocBase 2) 1 server (.accept d) { server with
        id := server.id + 1, bases := Function.update server.bases i base
        calling := some (i, d), given := server.given ++ [(d, i)] } := by
    subst turn
    exact .acceptOther here free fresh other step
  rw [starts]
  refine ⟨_, _, ?_, ?_, ?_, ?_,
    .cons (@loops _ 0 _ (by decide) (@Wakeup.Step.poll _ _ _ _ _ false rfl (by decide)) rfl) <|
    .cons (@loops _ 0 _ (by decide) (.callback rfl) rfl) <|
    .cons (@posts _ 5 1 _ rfl rfl ⟨by decide, by decide⟩ (by decide) (by decide)
      (.post (wakes (by decide)))) <|
    .cons (.safeCall rfl (.write List.mem_cons_self (by decide))) <|
    .cons (@Step.acceptOwn _ _ _ _ _ _ _ _ _ 6 rfl rfl ⟨by decide, by decide⟩ (by decide)) <|
    .cons (@posts _ 7 1 _ rfl rfl ⟨by decide, by decide⟩ (by decide) (by decide)
      (.post (wakes (by decide)))) <|
    .cons (@loops _ 1 _ (by decide) (@Wakeup.Step.poll _ _ _ _ _ true rfl (by decide)) rfl) <|
    .cons (@loops _ 1 _ (by decide) (.handle rfl rfl) rfl) <|
    .cons (@loops _ 1 _ (by decide) (.read rfl (by decide)) rfl) <|
    .cons (@loops _ 1 _ (by decide) (.pop rfl rfl) rfl) <|
    .cons (@Step.attach _ _ _ _ _ _ _ _ _ 1 5 _ rfl (.taskEnd rfl)) <| .refl _⟩
  · rfl
  · rfl
  · rfl
  · simp

theorem attached_in_order_three : ∃ server : TcpServer ℕ ℕ Empty,
    server.attached = [(6, 0), (5, 1)] ∧ server.pending 1 = [7] := by
  obtain ⟨server, labels, given, attached, -, -, run⟩ := three_accepted
  refine ⟨server, attached, ?_⟩
  have split := (attached_in_order run).2.1 1
  rw [given, attached] at split
  simpa [share] using split.symm

/-! ## Shares -/

/-- Alone with its bases, a server is given the bases of consecutive calls. -/
def Alone (alloc : ℕ → ι) (id : ℕ) (server : TcpServer ι δ ρ) : Prop :=
  server.id = id + 1 + server.given.length ∧
    server.given.map Prod.snd = (List.range' (id + 1) server.given.length).map alloc

omit [DecidableEq ι] [DecidableEq δ] [DecidableEq ρ] in
theorem Alone.accept {id : ℕ} (alone : Alone alloc id server) (d : δ) {i : ι}
    (turn : alloc server.id = i) :
    server.id + 1 = id + 1 + (server.given ++ [(d, i)]).length ∧
      (server.given ++ [(d, i)]).map Prod.snd =
        (List.range' (id + 1) (server.given ++ [(d, i)]).length).map alloc := by
  obtain ⟨counted, bases⟩ := alone
  refine ⟨by rw [List.length_append, List.length_singleton, counted, Nat.add_assoc], ?_⟩
  rw [List.map_append, bases, List.length_append, List.length_singleton, List.range'_1_concat,
    List.map_append, ← counted, List.map_singleton, List.map_singleton, turn]

theorem alone_step {id : ℕ} (alone : Alone alloc id server) (nobody : label ≠ .allocBase)
    (step : Step alloc capacity server label after) : Alone alloc id after := by
  cases step with
  | acceptOwn here free fresh own => exact alone.accept _ own
  | acceptOther here free fresh other step => exact alone.accept _ rfl
  | allocBase => exact absurd rfl nobody
  | safeCall _ _ | abandon _ _ _ | attach _ _ | base _ _ _ _ => exact alone

omit [DecidableEq ι] in
/-- **The bases share the load**: with nobody else at the bases and a counter that has not
overflowed, each of `sz` bases is given its share of the descriptors that are given to a base, or one
more. Descriptors that are abandoned do not count. -/
theorem bases_share {sz id : ℕ} {server : TcpServer ℕ δ ρ} {labels : List (Label ℕ δ ρ)}
    (run : LabelledRun (Step (MultiBase.allocBase sz) capacity) (init (MultiBase.allocBase sz) id)
      labels server)
    (nobody : .allocBase ∉ labels) (small : server.id ≤ 2 ^ 31) {i : ℕ} (inside : i < sz) :
    server.given.length / sz ≤ (share server.given i).length ∧
      (share server.given i).length ≤ server.given.length / sz + 1 := by
  have alone : Alone (MultiBase.allocBase sz) id server :=
    run.invariant_of_allowed _ (· ≠ .allocBase) (fun _ _ _ allowed before step =>
      alone_step before allowed step) (fun label member same => nobody (same ▸ member)) ⟨rfl, rfl⟩
  obtain ⟨counted, bases⟩ := alone
  have turns : (share server.given i).length =
      RoundRobin.turns sz (id + 1) server.given.length i := by
    calc (share server.given i).length = (server.given.map Prod.snd).countP (· = i) := by
          rw [share, List.length_map, ← List.countP_eq_length_filter, List.countP_map]
          rfl
      _ = (List.range' (id + 1) server.given.length).countP (MultiBase.allocBase sz · = i) := by
          rw [bases, List.countP_map, Function.comp_def]
      _ = RoundRobin.turns sz (id + 1) server.given.length i := by
          refine List.countP_congr fun c member => ?_
          have upper := (List.mem_range'_1.mp member).2
          have turn : MultiBase.allocBase sz c = c % sz := MultiBase.allocBase_eq (by omega)
          rw [decide_eq_true_iff, decide_eq_true_iff, turn]
  rw [turns]
  exact RoundRobin.turns_fair inside (id + 1) server.given.length

theorem bases_share_three : ∃ server : TcpServer ℕ ℕ Empty, server.given.length = 3 ∧
    1 ≤ (share server.given 0).length ∧ (share server.given 1).length ≤ 2 := by
  obtain ⟨server, labels, given, -, id, nobody, run⟩ := three_accepted
  have small : server.id ≤ 2 ^ 31 := by
    rw [id]
    decide
  refine ⟨server, by rw [given]; rfl, ?_, ?_⟩
  · have least := (bases_share run nobody small (by decide : 0 < 2)).1
    rw [given] at least ⊢
    exact least
  · have most := (bases_share run nobody small (by decide : 1 < 2)).2
    rw [given] at most ⊢
    exact most

end TcpServer

end Handy
