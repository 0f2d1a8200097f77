import Handy.Poller

/-!
# One round of the poller

`PollerEpoll::loop_once` goes through the events that `epoll_wait` has reported, from the
last to the first, and calls a handler of each channel. A handler may remove, destroy and add
channels while the loop is at it. `removeChannel` then takes the channel out of the events
that are still to come, and finds it because the index of the loop is where it starts to look.

A handler is modelled by the calls of the poller that it makes, which it chooses as a
function of everything there is; the `handleRead` that `Channel::close` runs is among what it
does. A fatal error of `epoll_ctl` ends the round. For each event the round notes a turn: the
channel that was reported, the channels removed in this round before its turn, and the handler
that was called, if one was (`loop_dispatches_live_channels`).
-/

set_option autoImplicit false

namespace Handy

/-- The events reported for a channel. -/
structure Report where
  channel : ℕ
  readable : Bool
  writable : Bool
  error : Bool
  deriving DecidableEq, Repr

/-- The handler that `loop_once` calls. -/
inductive Dispatch where
  | read
  | write
  /-- The fatal error of an event that is none of the expected ones. -/
  | unexpected
  deriving DecidableEq, Repr

/-- The branches of `loop_once` on the events of a channel. -/
def Report.dispatch (report : Report) : Dispatch :=
  if report.readable || report.error then .read
  else if report.writable then .write
  else .unexpected

/-- The calls of the poller that a handler makes. -/
inductive PollerOp where
  /-- `removeChannel` and the system call `close`, as `Channel::close` makes them. -/
  | remove (ch : Channel)
  | add (ch : Channel)
  | update (ch : Channel)

/-- The turn of a reported channel: which channels have been removed in this round, and the
handler that is called, with the channel it is called on. -/
structure Turn where
  channel : ℕ
  removed : List ℕ
  dispatched : Option (ℕ × Dispatch)
  deriving DecidableEq, Repr

/-- A round of the poller: the poller, the state of the handlers, the channels removed so far
and the turns, in order. -/
structure Round (σ : Type) where
  poller : Poller
  user : σ
  removed : List ℕ
  turns : List Turn

namespace Round

variable {σ : Type}

/-- A call of the poller by a handler; `none` when it is fatal. -/
def perform (round : Round σ) : PollerOp → Option (Round σ)
  | .remove ch => some { round with
      poller := (round.poller.removeChannel ch).closeFd ch.fd
      removed := round.removed ++ [ch.id] }
  | .add ch => (round.poller.addChannel ch).map fun poller => { round with poller := poller }
  | .update ch => (round.poller.updateChannel ch).map fun poller => { round with poller := poller }

/-- The calls of a handler, one after the other. -/
def performAll (round : Round σ) : List PollerOp → Option (Round σ)
  | [] => some round
  | op :: rest => (round.perform op).bind fun round => performAll round rest

/-- What handlers do: the calls they make, and their state after it. -/
abbrev Handlers (σ : Type) := ℕ → Dispatch → Round σ → List PollerOp × σ

/-- A handler is called. -/
def call (handlers : Handlers σ) (channel : ℕ) (dispatch : Dispatch) (round : Round σ) :
    Option (Round σ) :=
  if dispatch = .unexpected then none
  else
    let (ops, user) := handlers channel dispatch round
    performAll { round with user := user } ops

/-- The turn of the event at an index. The pointer is looked up when the turn comes, and the
events are those that were reported. -/
def takeTurn (handlers : Handlers σ) (i : ℕ) (report : Report) (round : Round σ) :
    Round σ × Bool :=
  let round := { round with poller := { round.poller with lastActive := i } }
  match (round.poller.activeEvs[i]?).join with
  | none => ({ round with
      turns := round.turns ++ [⟨report.channel, round.removed, none⟩] }, true)
  | some ch =>
      let round := { round with
        turns := round.turns ++ [⟨report.channel, round.removed, some (ch, report.dispatch)⟩] }
      match call handlers ch report.dispatch round with
      | none => (round, false)
      | some round => (round, true)

/-- The while loop of `loop_once`, over the reports below an index; the answer is whether it
came to its end. -/
def loop (handlers : Handlers σ) (reports : List Report) : ℕ → Round σ → Round σ × Bool
  | 0, round => ({ round with poller := { round.poller with lastActive := -1 } }, true)
  | i + 1, round =>
      match reports[i]? with
      | none => loop handlers reports i round
      | some report =>
          match takeTurn handlers i report round with
          | (round, false) => (round, false)
          | (round, true) => loop handlers reports i round

/-- `PollerEpoll::loop_once`, when `epoll_wait` reports these events. -/
def loopOnce (handlers : Handlers σ) (reports : List Report) (poller : Poller) (user : σ) :
    Round σ × Bool :=
  let poller := { poller with
    activeEvs := reports.map (fun report => some report.channel) ++
      poller.activeEvs.drop reports.length
    lastActive := reports.length }
  loop handlers reports reports.length ⟨poller, user, [], []⟩

/-! ## Removing a channel from the events to come -/

theorem forget_above (id count : ℕ) (evs : List (Option ℕ)) {j : ℕ} (above : count ≤ j) :
    (Poller.forget id count evs)[j]? = evs[j]? := by
  fun_induction Poller.forget id count evs with
  | case1 evs => rfl
  | case2 i evs here => rw [List.getElem?_set_ne (by omega)]
  | case3 i evs elsewhere ih => exact ih (by omega)

/-- The loop of `removeChannel` finds the one event of a channel. -/
theorem forget_below (id count : ℕ) (evs : List (Option ℕ))
    (once : ∀ i j, i < count → j < count → evs[i]? = some (some id) → evs[j]? = some (some id) → i = j)
    {j : ℕ} (below : j < count) :
    (Poller.forget id count evs)[j]? = if evs[j]? = some (some id) then some none else evs[j]? := by
  fun_induction Poller.forget id count evs with
  | case1 evs => omega
  | case2 i evs here =>
      by_cases same : j = i
      · subst same
        have inside : j < evs.length := List.getElem?_eq_some_iff.mp here |>.1
        rw [List.getElem?_set_self inside, if_pos here]
      · have other : evs[j]? ≠ some (some id) := fun there =>
          same (once j i below (by omega) there here)
        rw [List.getElem?_set_ne (by omega), if_neg other]
  | case3 i evs elsewhere ih =>
      by_cases same : j = i
      · subst same
        rw [forget_above id j evs le_rfl, if_neg elsewhere]
      · exact ih (fun i' j' inside inside' => once i' j' (by omega) (by omega)) (by omega)

/-! ## The round -/

/-- The events below an index are those reported, less the channels that were removed. -/
def Upcoming (reports : List Report) (i : ℕ) (round : Round σ) : Prop :=
  ∀ j < i, ∀ report, reports[j]? = some report → round.poller.activeEvs[j]? =
    some (if report.channel ∈ round.removed then none else some report.channel)

/-- What holds while the handler at an index is called. -/
structure Serving (reports : List Report) (i : ℕ) (turns : List Turn) (round : Round σ) : Prop where
  upcoming : Upcoming reports (i + 1) round
  lastActive : round.poller.lastActive = i
  turns_eq : round.turns = turns

variable {reports : List Report} {i : ℕ} {turns : List Turn} {round after : Round σ}

/-- Calls of the poller that do not remove a channel leave the events to come alone. -/
theorem activeEvs_addChannel {poller after : Poller} {ch : Channel}
    (added : poller.addChannel ch = some after) :
    after.activeEvs = poller.activeEvs ∧ after.lastActive = poller.lastActive := by
  unfold Poller.addChannel at added
  split_ifs at added
  cases added
  exact ⟨rfl, rfl⟩

theorem activeEvs_updateChannel {poller after : Poller} {ch : Channel}
    (updated : poller.updateChannel ch = some after) :
    after.activeEvs = poller.activeEvs ∧ after.lastActive = poller.lastActive := by
  unfold Poller.updateChannel at updated
  split_ifs at updated
  cases updated
  exact ⟨rfl, rfl⟩

section Handler

variable (distinct : (reports.map Report.channel).Nodup) (inside : i < reports.length)

include distinct inside

/-- A channel has one event among those to come. -/
theorem Serving.once (serving : Serving reports i turns round) (id : ℕ) :
    ∀ j k, j < i + 1 → k < i + 1 → round.poller.activeEvs[j]? = some (some id) →
      round.poller.activeEvs[k]? = some (some id) → j = k := by
  have named : ∀ j, j < i + 1 → round.poller.activeEvs[j]? = some (some id) →
      (reports.map Report.channel)[j]? = some id := by
    intro j below there
    have listed : reports[j]? = some reports[j] := List.getElem?_eq_getElem (by omega)
    have entry := serving.upcoming j below _ listed
    rw [there, Option.some.injEq] at entry
    split_ifs at entry
    rw [List.getElem?_map, listed, Option.map_some, ← entry]
  intro j k belowj belowk therej therek
  refine (List.getElem?_inj ?_ distinct).mp ((named j belowj therej).trans (named k belowk therek).symm)
  rw [List.length_map]
  omega

theorem Serving.perform (serving : Serving reports i turns round) {op : PollerOp}
    (performed : round.perform op = some after) : Serving reports i turns after := by
  cases op with
  | remove ch =>
      cases performed
      refine ⟨fun j below report listed => ?_, serving.lastActive, serving.turns_eq⟩
      have count : (round.poller.lastActive + 1).toNat = i + 1 := by
        rw [serving.lastActive]
        omega
      have entry := serving.upcoming j below report listed
      show (Poller.forget ch.id (round.poller.lastActive + 1).toNat round.poller.activeEvs)[j]? = _
      rw [count, forget_below ch.id (i + 1) _ (serving.once distinct inside ch.id) below, entry]
      by_cases gone : report.channel ∈ round.removed
      · simp [gone]
      · by_cases this : report.channel = ch.id
        · simp [this]
        · simp [gone, this]
  | add ch =>
      obtain ⟨poller, added, rfl⟩ := Option.map_eq_some_iff.mp performed
      obtain ⟨activeEvs, lastActive⟩ := activeEvs_addChannel added
      refine ⟨fun j below report listed => ?_, lastActive.trans serving.lastActive, serving.turns_eq⟩
      exact (congrArg (·[j]?) activeEvs).trans (serving.upcoming j below report listed)
  | update ch =>
      obtain ⟨poller, updated, rfl⟩ := Option.map_eq_some_iff.mp performed
      obtain ⟨activeEvs, lastActive⟩ := activeEvs_updateChannel updated
      refine ⟨fun j below report listed => ?_, lastActive.trans serving.lastActive, serving.turns_eq⟩
      exact (congrArg (·[j]?) activeEvs).trans (serving.upcoming j below report listed)

theorem Serving.performAll {ops : List PollerOp} (serving : Serving reports i turns round)
    (performed : round.performAll ops = some after) : Serving reports i turns after := by
  induction ops generalizing round with
  | nil =>
      cases performed
      exact serving
  | cons op rest ih =>
      obtain ⟨middle, first, others⟩ := Option.bind_eq_some_iff.mp performed
      exact ih (serving.perform distinct inside first) others

theorem Serving.call {handlers : Handlers σ} {channel : ℕ} {dispatch : Dispatch}
    (serving : Serving reports i turns round)
    (called : Round.call handlers channel dispatch round = some after) :
    Serving reports i turns after := by
  unfold Round.call at called
  split_ifs at called
  have start : Serving reports i turns
      { round with user := (handlers channel dispatch round).2 } :=
    ⟨serving.upcoming, serving.lastActive, serving.turns_eq⟩
  exact start.performAll distinct inside called

end Handler

/-- What a turn is to be: the handler of the channel is called unless it was removed. -/
def Fair (report : Report) (turn : Turn) : Prop :=
  turn.channel = report.channel ∧
    turn.dispatched = if report.channel ∈ turn.removed then none
      else some (report.channel, report.dispatch)

section Turns

variable (distinct : (reports.map Report.channel).Nodup) (handlers : Handlers σ)

include distinct

/-- One turn. -/
theorem takeTurn_fair {report : Report} (upcoming : Upcoming reports (i + 1) round)
    (listed : reports[i]? = some report) :
    ∃ turn, (takeTurn handlers i report round).1.turns = round.turns ++ [turn] ∧
      Fair report turn ∧
      ((takeTurn handlers i report round).2 = true →
        Upcoming reports i (takeTurn handlers i report round).1) := by
  have inside : i < reports.length := (List.getElem?_eq_some_iff.mp listed).1
  have entry := upcoming i (Nat.lt_succ_self i) report listed
  by_cases gone : report.channel ∈ round.removed
  · rw [if_pos gone] at entry
    have skipped : takeTurn handlers i report round = ({ round with
        poller := { round.poller with lastActive := i }
        turns := round.turns ++ [⟨report.channel, round.removed, none⟩] }, true) := by
      simp only [takeTurn, entry, Option.join_some]
    rw [skipped]
    exact ⟨_, rfl, ⟨rfl, by rw [if_pos gone]⟩, fun _ j below => upcoming j (by omega)⟩
  · rw [if_neg gone] at entry
    have start : Serving reports i
        (round.turns ++ [⟨report.channel, round.removed, some (report.channel, report.dispatch)⟩])
        { round with
          poller := { round.poller with lastActive := i }
          turns := round.turns ++
            [⟨report.channel, round.removed, some (report.channel, report.dispatch)⟩] } :=
      ⟨upcoming, rfl, rfl⟩
    refine ⟨⟨report.channel, round.removed, some (report.channel, report.dispatch)⟩, ?_,
      ⟨rfl, by rw [if_neg gone]⟩, ?_⟩
    all_goals
      simp only [takeTurn, entry, Option.join_some]
      split
    · rfl
    · rename_i after called
      exact (start.call distinct inside called).turns_eq
    · intro never
      cases never
    · rename_i after called
      exact fun _ j below => (start.call distinct inside called).upcoming j (by omega)

omit distinct in
/-- The loop goes on unless a turn was fatal. -/
theorem loop_succ {report : Report} (listed : reports[i]? = some report) :
    loop handlers reports (i + 1) round =
      if (takeTurn handlers i report round).2 then
        loop handlers reports i (takeTurn handlers i report round).1
      else ((takeTurn handlers i report round).1, false) := by
  rw [loop, listed]
  simp only
  rcases takeTurn handlers i report round with ⟨next, _ | _⟩ <;> rfl

/-- The turns of a round. -/
theorem loop_fair (upcoming : Upcoming reports i round) (le : i ≤ reports.length) :
    ∃ new done rest, (loop handlers reports i round).1.turns = round.turns ++ new ∧
      (reports.take i).reverse = done ++ rest ∧ List.Forall₂ Fair done new ∧
      ((loop handlers reports i round).2 = true → rest = []) := by
  induction i generalizing round with
  | zero => exact ⟨[], [], [], by simp [loop], by simp, .nil, fun _ => rfl⟩
  | succ i ih =>
      have listed : reports[i]? = some reports[i] := List.getElem?_eq_getElem (by omega)
      have order : (reports.take (i + 1)).reverse = reports[i] :: (reports.take i).reverse := by
        rw [List.take_succ_eq_append_getElem (by omega), List.reverse_append]
        rfl
      obtain ⟨turn, turns, fair, goes_on⟩ := takeTurn_fair distinct handlers upcoming listed
      rw [loop_succ handlers listed]
      split_ifs with ended
      · obtain ⟨new, done, rest, later, split, all_fair, complete⟩ := ih (goes_on ended) (by omega)
        refine ⟨turn :: new, reports[i] :: done, rest, ?_, ?_, .cons fair all_fair, complete⟩
        · rw [later, turns, List.append_assoc]
          rfl
        · rw [order, split, List.cons_append]
      · exact ⟨[turn], [reports[i]], (reports.take i).reverse, turns, order, .cons fair .nil, nofun⟩

end Turns

/-! ## The handlers that were called -/

section Calls

variable {ρ : Type} (view : σ → ρ) (act : ρ → ℕ × Dispatch → ρ) (start : ρ)

/-- What is seen of the state of the handlers is made by the calls that were noted, in order. -/
def Followed (round : Round σ) : Prop :=
  view round.user = (round.turns.filterMap Turn.dispatched).foldl act start

/-- What a handler asks of the poller leaves the handlers and the turns alone. -/
theorem performAll_frame {ops : List PollerOp} (performed : round.performAll ops = some after) :
    after.user = round.user ∧ after.turns = round.turns := by
  induction ops generalizing round with
  | nil =>
      cases performed
      exact ⟨rfl, rfl⟩
  | cons op rest ih =>
      obtain ⟨middle, first, others⟩ := Option.bind_eq_some_iff.mp performed
      obtain ⟨user, turns⟩ := ih others
      have kept : middle.user = round.user ∧ middle.turns = round.turns := by
        cases op with
        | remove ch =>
            cases first
            exact ⟨rfl, rfl⟩
        | add ch | update ch =>
            obtain ⟨poller, -, rfl⟩ := Option.map_eq_some_iff.mp first
            exact ⟨rfl, rfl⟩
      exact ⟨user.trans kept.1, turns.trans kept.2⟩

variable {view act start} {handlers : Handlers σ}
  (acts : ∀ channel dispatch round,
    view (handlers channel dispatch round).2 = act (view round.user) (channel, dispatch))

include acts

theorem takeTurn_followed {report : Report} (followed : Followed view act start round)
    (ends : (takeTurn handlers i report round).2 = true) :
    Followed view act start (takeTurn handlers i report round).1 := by
  unfold Followed at followed
  cases pointer : (round.poller.activeEvs[i]?).join with
  | none =>
      simp only [takeTurn, pointer, Followed, List.filterMap_append, List.foldl_append]
      exact followed
  | some ch =>
      simp only [takeTurn, pointer] at ends ⊢
      split at ends
      · cases ends
      · rename_i after called
        unfold call at called
        split_ifs at called
        obtain ⟨user, turns⟩ := performAll_frame called
        simp only [Followed, user, turns, List.filterMap_append, List.foldl_append, ← followed]
        exact acts ch _ _

theorem loop_followed (followed : Followed view act start round)
    (ends : (loop handlers reports i round).2 = true) :
    Followed view act start (loop handlers reports i round).1 := by
  induction i generalizing round with
  | zero => exact followed
  | succ i ih =>
      cases listed : reports[i]? with
      | none =>
          rw [loop, listed] at ends ⊢
          exact ih followed ends
      | some report =>
          rw [loop_succ handlers listed] at ends ⊢
          split_ifs at ends ⊢ with turned
          exact ih (takeTurn_followed acts followed turned) ends

end Calls

section Turns

variable (distinct : (reports.map Report.channel).Nodup) (handlers : Handlers σ)

include distinct

/-- **A round of the poller calls the handlers of live channels only, and of all of them**: if
`epoll_wait` reports each channel at most once and with an event that is expected, then
whatever the handlers remove, destroy or add, each reported channel has one turn, from the
last to the first, until a handler ends in a fatal error; and in its turn the read or write
handler of that channel is called, unless the channel has been removed before in this
round. What is seen of the state of the handlers after the round is what these calls have made of
it, in order. -/
theorem loop_dispatches_live_channels (poller : Poller) (user : σ)
    (expected : ∀ report ∈ reports, report.dispatch ≠ .unexpected) :
    ∃ done rest, reports.reverse = done ++ rest ∧
      List.Forall₂ (fun report turn => Fair report turn ∧
          (turn.dispatched.map Prod.snd ≠ some .unexpected)) done
        (loopOnce handlers reports poller user).1.turns ∧
      ((loopOnce handlers reports poller user).2 = true → rest = []) ∧
      ∀ {ρ : Type} (view : σ → ρ) (act : ρ → ℕ × Dispatch → ρ),
        (∀ channel dispatch round,
          view (handlers channel dispatch round).2 = act (view round.user) (channel, dispatch)) →
        (loopOnce handlers reports poller user).2 = true →
        view (loopOnce handlers reports poller user).1.user =
          ((loopOnce handlers reports poller user).1.turns.filterMap Turn.dispatched).foldl act
            (view user) := by
  have upcoming : Upcoming reports reports.length (⟨{ poller with
      activeEvs := reports.map (fun report => some report.channel) ++
        poller.activeEvs.drop reports.length
      lastActive := reports.length }, user, [], []⟩ : Round σ) := by
    intro j below report listed
    have inside : j < (reports.map fun report => some report.channel).length := by
      rwa [List.length_map]
    show (reports.map (fun report => some report.channel) ++ _)[j]? = _
    rw [List.getElem?_append_left inside, List.getElem?_map, listed]
    rfl
  obtain ⟨new, done, rest, turns, split, fair, complete⟩ := loop_fair distinct handlers upcoming le_rfl
  rw [List.take_length] at split
  refine ⟨done, rest, split, ?_, complete, fun view act acts ends => loop_followed acts rfl ends⟩
  rw [show (loopOnce handlers reports poller user).1.turns = new from turns]
  have among : ∀ report ∈ done, report ∈ reports := fun report member =>
    List.mem_reverse.mp (split ▸ List.mem_append_left _ member)
  clear turns split complete
  induction fair with
  | nil => exact .nil
  | @cons report turn done new this others ih =>
      refine .cons ⟨this, ?_⟩ (ih fun other member => among other (List.mem_cons_of_mem _ member))
      rw [this.2]
      split_ifs
      · simp
      · simpa using expected report (among report List.mem_cons_self)

end Turns

/-- Three channels are readable; the handler of the last removes the first and itself, and the
handlers count how often they are called. -/
def threeReports : List Report :=
  [⟨1, true, false, false⟩, ⟨2, false, true, false⟩, ⟨3, true, false, false⟩]

def removing : Handlers ℕ := fun channel _ round =>
  (if channel = 3 then [.remove ⟨1, 11, ⟨true, false⟩⟩, .remove ⟨3, 13, ⟨true, false⟩⟩] else [],
    round.user + 1)

theorem loop_dispatches_live_channels_removing :
    (loopOnce removing threeReports .init 0).1.turns =
        [⟨3, [], some (3, .read)⟩, ⟨2, [1, 3], some (2, .write)⟩, ⟨1, [1, 3], none⟩] ∧
      ∃ done rest, threeReports.reverse = done ++ rest ∧
        List.Forall₂ (fun report turn => Fair report turn ∧
          (turn.dispatched.map Prod.snd ≠ some .unexpected)) done
          (loopOnce removing threeReports .init 0).1.turns ∧
        ((loopOnce removing threeReports .init 0).2 = true → rest = []) ∧
        (loopOnce removing threeReports .init 0).1.user = 2 := by
  refine ⟨by decide, ?_⟩
  obtain ⟨done, rest, split, fair, complete, counted⟩ :=
    @loop_dispatches_live_channels _ threeReports (by decide) removing .init 0 (by decide)
  refine ⟨done, rest, split, fair, complete, ?_⟩
  exact (counted id (fun count _ => count + 1) (fun _ _ _ => rfl) (by decide)).trans (by decide)

end Round

end Handy
