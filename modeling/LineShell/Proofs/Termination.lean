import Mathlib.Tactic.Linarith
import Mathlib.Tactic.Ring
import LineShell.Proofs.WellWired

/-!
No order of moves goes on for ever. A worker that has begun has only so many
steps left, and a frame that it hands to the next worker gives that one less to
do than it costs; so with each worker weighing nine times as much as the one
behind it the whole gets lighter with every step. How much a worker has to do
that has not begun shows only when it begins, which each does once.
-/

namespace LineShell

namespace Body

private theorem workBound_congr (first second : Wiring) (h : first.input = second.input)
    (body : Body) : body.workBound first = body.workBound second := by
  have hbacklog : first.backlog = second.backlog := by simp [Wiring.backlog, h]
  have hready : first.isReady = second.isReady := Wiring.isReady_congr h
  cases body with
  | emitting line next => cases next <;> simp [workBound, readingBound, hbacklog]
  | sending line next => cases next <;> simp [workBound, readingBound, hbacklog]
  | _ => simp [workBound, readingBound, hbacklog, hready]

/-- One more frame to read, and perhaps an end to notice, is little more work. -/
theorem workBound_le {before after : Wiring} (h : after.backlog ≤ before.backlog + 1)
    (body : Body) : body.workBound after ≤ body.workBound before + 8 := by
  have hreading : ∀ reader, readingBound after reader ≤ readingBound before reader + 6 := by
    intro reader
    simp only [readingBound]
    omega
  cases body with
  | emitting line next =>
      cases next with
      | read filter =>
          have := hreading (.filter filter)
          simp only [workBound]
          omega
      | flush lines => simp [workBound]
  | sending line next =>
      cases next with
      | read filter =>
          have := hreading (.filter filter)
          simp only [workBound]
          omega
      | flush lines => simp [workBound]
  | reading reader | receiving reader | writing line reader =>
      have := hreading reader
      simp only [workBound]
      omega
  | waiting reader =>
      have := hreading reader
      simp only [workBound]
      split <;> split <;> omega
  | _ => simp [workBound]

end Body

namespace Worker

/-- Whether a worker has not taken its first step. -/
def isFresh : Worker → Bool
  | .running (.fresh _) => true
  | _ => false

/-- A bound on the steps that a worker with this inbox may still take, once it has
begun. -/
def load (inbox : Option Channel) : Worker → Nat
  | .running body => body.workBound { input := inbox, output := none } + 2
  | .leaving _ => 1
  | .gone _ => 0

private theorem bound_eq_load {worker : Worker} (h : worker.isFresh = false) (wiring : Wiring)
    (world : World) : worker.bound wiring world = worker.load wiring.input := by
  cases worker with
  | running body =>
      have hbegun : body.hasBegun = true := by
        cases body with
        | fresh verb => cases h
        | _ => rfl
      have hinput : body.workBound wiring =
          body.workBound { input := wiring.input, output := none } :=
        Body.workBound_congr wiring { input := wiring.input, output := none } rfl body
      rw [bound, load, Body.bound_of_hasBegun hbegun, hinput]
  | leaving exit => rfl
  | gone exit => rfl

theorem isFresh_of_step {worker next : Worker} {wiring after : Wiring} {world later : World}
    (h : worker.step wiring world = some (next, after, later)) : next.isFresh = false := by
  cases goes_of_step h with
  | @work body ahead _ _ hbody =>
      have hbegun := Body.hasBegun_of_goes hbody
      cases ahead with
      | fresh verb => cases hbegun
      | _ => rfl
  | _ => rfl

private theorem load_of_step {worker next : Worker} {wiring after : Wiring} {world later : World}
    (h : worker.step wiring world = some (next, after, later)) (hbegun : worker.isFresh = false) :
    next.load after.input < worker.load wiring.input := by
  rw [← bound_eq_load hbegun wiring world, ← bound_eq_load (isFresh_of_step h) after later]
  exact bound_of_goes (goes_of_step h)

private theorem length_queue_outputAfter (worker : Worker) (channel : Channel) :
    (worker.outputAfter channel).queue.length ≤ channel.queue.length + 1 := by
  unfold outputAfter
  split
  · unfold Channel.send
    split <;> simp
  · simp
  · unfold Channel.finish
    split
    · simp
    · split <;> simp
  · simp [Channel.dropSender]
  · simp

/-- What a worker hands to the next one costs that one at most eight steps. -/
theorem load_outputAfter (worker reader : Worker) (inbox : Option Channel) :
    reader.load (inbox.map worker.outputAfter) ≤ reader.load inbox + 8 := by
  cases reader with
  | running body =>
      simp only [load]
      have hbacklog : Wiring.backlog { input := inbox.map worker.outputAfter, output := none } ≤
          Wiring.backlog { input := inbox, output := none } + 1 := by
        cases inbox with
        | none => simp [Wiring.backlog]
        | some channel => exact length_queue_outputAfter worker channel
      have := Body.workBound_le hbacklog body
      omega
  | leaving exit => simp [load]
  | gone exit => simp [load]

end Worker

namespace Post

/-- How many workers have not begun. -/
def freshCount (posts : List Post) : Nat :=
  posts.countP fun post => post.worker.isFresh

/-- The work that is left for the workers that have begun. -/
def weight : List Post → Nat
  | [] => 0
  | post :: rest => 9 ^ rest.length * post.worker.load post.inbox + weight rest

theorem length_of_stepAt {cancelled : Bool} {position : Nat} {posts after : List Post}
    {world later : World} (h : stepAt cancelled position posts world = some (after, later)) :
    after.length = posts.length := by
  induction posts generalizing position after with
  | nil => simp [stepAt] at h
  | cons post rest ih =>
      cases position with
      | zero =>
          obtain ⟨worker, wiring, -, rfl⟩ := stepAt_zero h
          cases rest <;> rfl
      | succ position =>
          obtain ⟨more, hmore, rfl⟩ := stepAt_succ h
          simp [ih hmore]

/-- The posts behind a worker get heavier by less than one of its steps weighs. -/
theorem weight_withInbox (worker : Worker) (rest : List Post) :
    weight (withInbox ((inboxOf rest).map worker.outputAfter) rest) + 1 ≤
      weight rest + 9 ^ rest.length := by
  cases rest with
  | nil => simp [withInbox, weight]
  | cons next more =>
      have hload := worker.load_outputAfter next.worker next.inbox
      have hpos : 0 < 9 ^ more.length := by positivity
      simp only [withInbox, inboxOf, weight, List.length_cons, pow_succ]
      nlinarith

private theorem freshCount_withInbox (channel : Option Channel) (rest : List Post) :
    freshCount (withInbox channel rest) = freshCount rest := by
  cases rest <;> simp [withInbox, freshCount, List.countP_cons]

/-- With every step a worker begins, or the weight becomes less. -/
theorem lighter_of_stepAt {cancelled : Bool} {position : Nat} {posts after : List Post}
    {world later : World} (h : stepAt cancelled position posts world = some (after, later)) :
    freshCount after < freshCount posts ∨
      freshCount after = freshCount posts ∧ weight after < weight posts := by
  induction posts generalizing position after with
  | nil => simp [stepAt] at h
  | cons post rest ih =>
      cases position with
      | zero =>
          obtain ⟨worker, wiring, hstep, rfl⟩ := stepAt_zero h
          have hnext : worker.isFresh = false := Worker.isFresh_of_step hstep
          have hrest := freshCount_withInbox ((inboxOf rest).map post.worker.outputAfter) rest
          cases hfresh : post.worker.isFresh with
          | true =>
              left
              simp only [freshCount, List.countP_cons, hnext, hfresh] at hrest ⊢
              simp [hrest]
          | false =>
              right
              constructor
              · simp only [freshCount, List.countP_cons, hnext, hfresh] at hrest ⊢
                simp [hrest]
              · have hload : worker.load (post.inbox.map post.worker.inputAfter) <
                    post.worker.load post.inbox := by
                  have hless := Worker.load_of_step hstep hfresh
                  rwa [congrArg Wiring.input (Worker.wiring_of_step hstep)] at hless
                have hmore := weight_withInbox post.worker rest
                have hlength :
                    (withInbox ((inboxOf rest).map post.worker.outputAfter) rest).length =
                      rest.length := by cases rest <;> rfl
                have hscaled := Nat.mul_le_mul_left (9 ^ rest.length) (Nat.succ_le_of_lt hload)
                simp only [weight, hlength]
                rw [Nat.succ_eq_add_one, Nat.mul_add, Nat.mul_one] at hscaled
                omega
      | succ position =>
          obtain ⟨more, hmore, rfl⟩ := stepAt_succ h
          have hlength := length_of_stepAt hmore
          rcases ih hmore with hfewer | ⟨hsame, hless⟩
          · left
            simpa [freshCount, List.countP_cons] using hfewer
          · right
            constructor
            · simpa [freshCount, List.countP_cons] using hsame
            · simpa [weight, hlength] using hless

end Post

namespace Run

/-- The work that is left, with the firing of the token as one step. -/
def weight (run : Run) : Nat :=
  Post.weight run.posts + if run.cancelled then 0 else 1

theorem lighter_of_move {run after : Run} {world later : World} {move : Move}
    (h : run.move world move = some (after, later)) :
    Post.freshCount after.posts < Post.freshCount run.posts ∨
      Post.freshCount after.posts = Post.freshCount run.posts ∧ after.weight < run.weight := by
  rcases move_cases h with ⟨position, posts, -, rfl, hstep⟩ | ⟨-, hcancelled, rfl, -⟩
  · rcases Post.lighter_of_stepAt hstep with hfewer | ⟨hsame, hless⟩
    · exact .inl hfewer
    · exact .inr ⟨hsame, Nat.add_lt_add_right hless _⟩
  · exact .inr ⟨rfl, by simp [weight, cancel, hcancelled]⟩

/-- In every endless order of moves there is one that cannot be made when its turn
comes. -/
theorem follow_eq_none (run : Run) (world : World) (order : Nat → Move) :
    ∃ count, run.follow world ((List.range count).map order) = none := by
  cases hmove : run.move world (order 0) with
  | none => exact ⟨1, by simp [List.range_succ, follow, hmove]⟩
  | some state =>
      obtain ⟨count, hcount⟩ := follow_eq_none state.1 state.2 fun turn => order (turn + 1)
      refine ⟨count + 1, ?_⟩
      rw [List.range_succ_eq_map, List.map_cons, List.map_map, follow, hmove]
      exact hcount
termination_by (Post.freshCount run.posts, run.weight)
decreasing_by
  rcases lighter_of_move hmove with hfewer | ⟨hsame, hless⟩
  · exact Prod.Lex.left _ _ hfewer
  · rw [hsame]
    exact Prod.Lex.right _ hless

end Run

end LineShell
