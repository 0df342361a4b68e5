import LineShell.Worker.Steps

/-!
A worker that is left alone comes to rest. The number of steps that it may
still take is bounded by what waits in its input and by the lines that it has
yet to send, and every step makes that bound smaller. So a worker can be run
until it has ended or has to wait for a line that is not there.
-/

namespace LineShell

def Wiring.backlog (wiring : Wiring) : Nat :=
  match wiring.input with
  | some channel => channel.queue.length
  | none => 0

theorem Wiring.backlog_receive_line {wiring next : Wiring} {line : Text}
    (h : wiring.receive = (next, .line line)) : next.backlog + 1 = wiring.backlog := by
  unfold Wiring.receive at h
  split at h
  · rename_i channel hc
    split at h
    · simp only [Prod.mk.injEq] at h
      obtain ⟨rfl, h⟩ := h
      unfold Channel.takeLine at h ⊢
      simp only [Wiring.backlog, hc]
      split at h
      · simp at h
      · rename_i hd
        simp only [hd]
        split at h
        · simp_all
        · simp_all
        · split at h <;> simp at h
    · simp at h
  · simp at h

theorem Wiring.eq_of_waiting {wiring next : Wiring}
    (h : wiring.receive = (next, .waiting)) : next = wiring := by
  unfold Wiring.receive at h
  split at h
  · rename_i channel hc
    split at h
    · simp only [Prod.mk.injEq] at h
      obtain ⟨rfl, h⟩ := h
      unfold Channel.takeLine at h ⊢
      split at h
      · simp at h
      · rename_i hd
        simp only [hd]
        split at h
        · simp at h
        · simp at h
        · split at h
          · rename_i hs
            simp [hs, ← hc]
          · simp at h
    · simp at h
  · simp at h

/-- A read that had to wait would have to wait again. -/
theorem Wiring.isReady_of_waiting {wiring next : Wiring}
    (h : wiring.receive = (next, .waiting)) : next.isReady = false := by
  obtain rfl := Wiring.eq_of_waiting h
  simp [Wiring.isReady, h]

theorem Wiring.backlog_transmit (wiring : Wiring) (line : Text) :
    (wiring.transmit line).1.backlog = wiring.backlog := by
  unfold Wiring.transmit
  split <;> rfl

/-- A filter stores at most one more line for each line that it takes. -/
theorem Filter.length_flush_take (filter : Filter) (line : Text) :
    (filter.take line).1.flush.length ≤ filter.flush.length + 1 := by
  cases filter with
  | matching query => simp [take, flush]
  | distinct seen =>
    simp only [take]
    split <;> simp [flush]
  | first left => simp [take, flush]
  | last kept =>
    simp only [take]
    split
    · simp only [flush, List.length_append, List.length_tail, List.length_singleton]
      omega
    · simp only [flush, List.length_append, List.length_singleton]
      omega
  | counting count => simp [take, flush]

namespace Body

def stored : Reader → Nat
  | .filter filter => filter.flush.length
  | _ => 0

theorem stored_writeLine (world : World) (line : Text) (reader : Reader) :
    stored (writeLine world line reader).1 = stored reader := by
  cases reader <;> rfl

/-- A bound on the steps that a reader may take once it looks for a line. -/
def readingBound (wiring : Wiring) (reader : Reader) : Nat :=
  6 * wiring.backlog + 2 * stored reader + 2

def workBound (wiring : Wiring) : Body → Nat
  | .fresh _ | .ended _ => 0
  | .closing | .storing .. => 1
  | .emitting _ (.flush lines) => 2 * lines.length + 2
  | .sending _ (.flush lines) => 2 * lines.length + 1
  | .receiving reader => readingBound wiring reader + 1
  | .reading reader => readingBound wiring reader + 2
  | .waiting reader =>
    if wiring.isReady then readingBound wiring reader + 2 else readingBound wiring reader
  | .writing _ reader => readingBound wiring reader + 3
  | .sending _ (.read filter) => readingBound wiring (.filter filter) + 3
  | .emitting _ (.read filter) => readingBound wiring (.filter filter) + 4

/-- A bound on the steps of a body. How much there is to do for one that has not
begun shows in the world. -/
def bound (body : Body) (wiring : Wiring) (world : World) : Nat :=
  match body with
  | .fresh verb => (start world verb).1.workBound wiring + 1
  | _ => body.workBound wiring

def hasBegun : Body → Bool
  | .fresh _ => false
  | _ => true

theorem bound_of_hasBegun {body : Body} (h : body.hasBegun = true) (wiring : Wiring)
    (world : World) : body.bound wiring world = body.workBound wiring := by
  cases body <;> simp_all [hasBegun, bound]

theorem hasBegun_flushing (lines : List Text) : (flushing lines).hasBegun = true := by
  cases lines <;> rfl

theorem hasBegun_readOn (filter : Filter) : (readOn filter).hasBegun = true := by
  unfold readOn
  split <;> rfl

theorem hasBegun_start (world : World) (verb : Verb) :
    (start world verb).1.hasBegun = true := by
  cases verb with
  | redirect path =>
    simp only [start]
    split <;> rfl
  | cat path => exact hasBegun_flushing _
  | ls => exact hasBegun_flushing _
  | pwd => rfl
  | cd change => rfl
  | exit => rfl
  | print => rfl
  | grep query => simpa only [start] using hasBegun_readOn _
  | uniq => simpa only [start] using hasBegun_readOn _
  | wc => simpa only [start] using hasBegun_readOn _
  | head => simpa only [start] using hasBegun_readOn _
  | tail => simpa only [start] using hasBegun_readOn _

theorem hasBegun_conclude (reader : Reader) : (conclude reader).hasBegun = true := by
  cases reader with
  | filter filter =>
    simp only [conclude]
    split
    · rfl
    · exact hasBegun_flushing _
  | console => rfl
  | file place held => rfl
  | nowhere => rfl

theorem hasBegun_handle (line : Text) (reader : Reader) :
    (handle line reader).hasBegun = true := by
  cases reader with
  | filter filter =>
    simp only [handle]
    split
    · rfl
    · exact hasBegun_readOn _
  | console => rfl
  | file place held => rfl
  | nowhere => rfl

theorem workBound_flushing (wiring : Wiring) (lines : List Text) :
    (flushing lines).workBound wiring = 2 * lines.length := by
  cases lines with
  | nil => rfl
  | cons line rest =>
    simp only [flushing, workBound, List.length_cons]
    omega

theorem workBound_readOn (wiring : Wiring) (filter : Filter) :
    (readOn filter).workBound wiring ≤ readingBound wiring (.filter filter) + 2 := by
  unfold readOn
  split
  · simp only [workBound, readingBound]
    omega
  · exact Nat.le_refl _

theorem workBound_conclude (wiring after : Wiring) (reader : Reader) :
    (conclude reader).workBound after ≤ readingBound wiring reader := by
  cases reader with
  | filter filter =>
    simp only [conclude]
    split
    · simp only [workBound, readingBound]
      omega
    · rw [workBound_flushing]
      simp only [readingBound, stored]
      omega
  | console => exact Nat.zero_le _
  | file place held => exact Nat.succ_le_succ (Nat.zero_le _)
  | nowhere => exact Nat.zero_le _

theorem workBound_handle {wiring next : Wiring} (line : Text) (reader : Reader)
    (h : next.backlog + 1 = wiring.backlog) :
    (handle line reader).workBound next ≤ readingBound wiring reader := by
  cases reader with
  | filter filter =>
    have hs := Filter.length_flush_take filter line
    simp only [handle]
    split
    · rename_i after passed ht
      simp only [ht] at hs
      simp only [workBound, readingBound, stored]
      omega
    · rename_i after ht
      simp only [ht] at hs
      refine Nat.le_trans (workBound_readOn next after) ?_
      simp only [readingBound, stored]
      omega
  | console =>
    simp only [handle, workBound, readingBound, stored]
    omega
  | file place held =>
    simp only [handle, workBound, readingBound, stored]
    omega
  | nowhere =>
    simp only [handle, workBound, readingBound, stored]
    omega

theorem hasBegun_resume (next : Continuation) : (resume next).hasBegun = true := by
  cases next with
  | read filter => exact hasBegun_readOn filter
  | flush lines => exact hasBegun_flushing lines

theorem hasBegun_of_goes {body next : Body} {wiring after : Wiring} {world later : World}
    (h : body.Goes wiring world next after later) : next.hasBegun = true := by
  cases h with
  | begin verb => exact hasBegun_start world verb
  | shut reader => exact hasBegun_conclude reader
  | take reader => exact hasBegun_handle _ reader
  | finish reader => exact hasBegun_conclude reader
  | send line next => exact hasBegun_resume next
  | _ => rfl

theorem bound_of_goes {body next : Body} {wiring after : Wiring} {world later : World}
    (h : body.Goes wiring world next after later) :
    next.bound after later < body.bound wiring world := by
  rw [bound_of_hasBegun (hasBegun_of_goes h)]
  cases h with
  | begin verb => exact Nat.lt_succ_self _
  | shut reader =>
    show _ < readingBound wiring reader + 2
    exact Nat.lt_of_le_of_lt (workBound_conclude wiring _ _) (by omega)
  | stopReading reader => exact Nat.succ_pos _
  | look reader => exact Nat.lt_succ_self _
  | take reader hreceived =>
    show _ < readingBound wiring reader + 1
    exact Nat.lt_succ_of_le (workBound_handle _ reader (Wiring.backlog_receive_line hreceived))
  | finish reader =>
    show _ < readingBound wiring reader + 1
    exact Nat.lt_succ_of_le (workBound_conclude wiring _ reader)
  | wait reader hreceived =>
    obtain rfl := Wiring.eq_of_waiting hreceived
    simp [bound, workBound, Wiring.isReady_of_waiting hreceived]
  | stopWaiting reader =>
    show 0 < workBound wiring (.waiting reader)
    simp only [workBound, readingBound]
    split <;> omega
  | wake reader _ hready => simp [bound, workBound, hready]
  | write line reader =>
    simp only [bound, workBound, readingBound, stored_writeLine]
    omega
  | store place held => exact Nat.one_pos
  | stopEmitting line next => cases next <;> exact Nat.succ_pos _
  | emit line next => cases next <;> exact Nat.lt_succ_self _
  | send line next htransmitted =>
    have hbacklog := Wiring.backlog_transmit wiring line
    rw [htransmitted] at hbacklog
    cases next with
    | read filter =>
      refine Nat.lt_of_le_of_lt (workBound_readOn _ filter) ?_
      simp only [bound, workBound, readingBound, hbacklog]
      omega
    | flush lines =>
      show (flushing lines).workBound _ < 2 * lines.length + 1
      rw [workBound_flushing]
      omega
  | refuse line next => cases next <;> exact Nat.succ_pos _
  | close => exact Nat.one_pos

/-- Runs a body until it has ended or has to wait for a line. -/
def run (body : Body) (wiring : Wiring) (world : World) : Body × Wiring × World :=
  match _hstep : body.step wiring world with
  | some (next, after, later) => next.run after later
  | none => (body, wiring, world)
termination_by body.bound wiring world
decreasing_by exact bound_of_goes (goes_of_step _hstep)

end Body

namespace Worker

/-- A bound on the steps of a worker: those of its body, and two at its end. -/
def bound (worker : Worker) (wiring : Wiring) (world : World) : Nat :=
  match worker with
  | .running body => body.bound wiring world + 2
  | .leaving _ => 1
  | .gone _ => 0

theorem bound_of_goes {worker next : Worker} {wiring after : Wiring} {world later : World}
    (h : worker.Goes wiring world next after later) :
    next.bound after later < worker.bound wiring world := by
  cases h with
  | work hbody => exact Nat.add_lt_add_right (Body.bound_of_goes hbody) 2
  | giveUp =>
    simp only [bound]
    omega
  | mark =>
    simp only [bound]
    omega
  | leave exit => exact Nat.succ_pos _

/-- Runs a worker until it has ended or has to wait for a line. -/
def run (worker : Worker) (wiring : Wiring) (world : World) : Worker × Wiring × World :=
  match _hstep : worker.step wiring world with
  | some (next, after, later) => next.run after later
  | none => (worker, wiring, world)
termination_by worker.bound wiring world
decreasing_by exact bound_of_goes (goes_of_step _hstep)

end Worker

end LineShell
