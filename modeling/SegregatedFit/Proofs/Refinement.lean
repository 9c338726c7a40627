import SegregatedFit.Proofs.Checking
import SegregatedFit.Proofs.Sessions

namespace SegregatedFit

namespace Heap

theorem Shows.unique {M : Type} [Memory M] {h : Heap M} {v v' : View} (first : h.Shows v)
    (second : h.Shows v') (ends : v'.ends = v.ends) : v = v' := by
  have spans : v'.spans = v.spans := first.chained.tiles.eq_of_headers second.chained.tiles
    first.room_pos second.room_pos (fun x => first.read) fun x => second.read
  have files : v'.files = v.files := by
    funext cls
    obtain ⟨stop, ending, threaded⟩ := first.filed.threaded cls
    obtain ⟨stop', ending', threaded'⟩ := second.filed.threaded cls
    exact threaded'.unique threaded (fun c => second.filed.listed_free)
      (fun c => first.filed.listed_free) (second.filed.used stop' ending')
      (first.filed.used stop ending)
  have journal : v'.journal = v.journal := second.journal.symm.trans first.journal
  obtain ⟨_, _, _, _⟩ := v
  obtain ⟨_, _, _, _⟩ := v'
  simp_all

end Heap

namespace View

def answered : Turn Nat → Turn (Option Nat)
  | (answer, v) => (answer.map some, v)

def perform (v : View) (t : Terms) : Request → Turn (Option Nat)
  | .allocate size => answered (v.allocate t size)
  | .allocateZeroed count size => answered (v.allocateZeroed t count size)
  | .release none => (.ok none, v)
  | .release (some b) => (.ok none, v.release b)
  | .reallocate none size => if size = 0 then (.ok none, v) else answered (v.allocate t size)
  | .reallocate (some b) size => v.reallocate t b size
  | .write _ _ _ => (.ok none, v)

theorem ends_answered (turn : Turn Nat) : (answered turn).2.ends = turn.2.ends := rfl

theorem ends_perform (v : View) (t : Terms) (r : Request) : (v.perform t r).2.ends = v.ends := by
  unfold perform
  split
  · rw [ends_answered, ends_allocate]
  · rw [ends_answered, ends_allocateZeroed]
  · rfl
  · exact ends_release ..
  · split
    · rfl
    · rw [ends_answered, ends_allocate]
  · exact ends_reallocate ..
  · rfl

end View

namespace Session

variable {A : Type} [Arena A] {s : Session A} {v v' : View} {r : Request} {answer : Answer}

namespace Kept

theorem run_shows (kept : s.Kept v) (allowed : r.allowed s = true)
    (turn : v.perform s.heap.terms r = (answer, v')) :
    ∃ h', r.run s.heap = .ok answer h' ∧ h'.Shows v' ∧ s.heap.Spares h' [] := by
  cases r with
  | allocate size =>
    cases turn
    obtain ⟨h', ran, sound, spares, _⟩ := Heap.allocate_shows kept.sound size rfl
    exact ⟨h', Heap.bind_of_ok ran, sound.shown, spares.nil⟩
  | allocateZeroed count size =>
    cases turn
    obtain ⟨h', ran, sound, spares, _⟩ := Heap.allocateZeroed_shows kept.sound count size rfl
    exact ⟨h', Heap.bind_of_ok ran, sound.shown, spares.nil⟩
  | release block =>
    cases block with
    | none =>
      cases turn
      exact ⟨s.heap, rfl, kept.sound.shown, .refl _ _⟩
    | some b =>
      cases turn
      obtain ⟨x, used, rfl⟩ := kept.used_of_target allowed rfl
      obtain ⟨h', ran, sound, spares, _⟩ :=
        Heap.releaseBlock_shows kept.sound used (kept.avoids used)
      exact ⟨h', Heap.bind_of_ok ran, sound.shown, spares.nil⟩
  | reallocate block size =>
    cases block with
    | none =>
      simp only [View.perform] at turn
      simp only [Request.run, Heap.reallocate]
      by_cases nothing : size = 0
      · rw [if_pos nothing] at turn ⊢
        cases turn
        exact ⟨s.heap, rfl, kept.sound.shown, .refl _ _⟩
      · rw [if_neg nothing] at turn ⊢
        cases turn
        obtain ⟨h', ran, sound, spares, _⟩ := Heap.allocate_shows kept.sound size rfl
        exact ⟨h', Heap.bind_of_ok ran, sound.shown, spares.nil⟩
    | some b =>
      obtain ⟨x, used, rfl⟩ := kept.used_of_target allowed rfl
      obtain ⟨h', ran, sound, resizes⟩ :=
        Heap.reallocate_shows kept.sound used (kept.avoids used) size turn
      exact ⟨h', ran, sound.shown, resizes.spares⟩
  | write b start bytes =>
    cases turn
    obtain ⟨x, used, rfl⟩ := kept.used_of_target allowed rfl
    have fits := (Bool.and_eq_true_iff.mp allowed).2
    simp only [Request.fits, kept.sound.read_payloadSize used, decide_eq_true_eq] at fits
    have room := kept.sound.shown.room_eight x (View.mem_of_used used)
    have within : start + bytes.size + 8 ≤ x.tag.size := by omega
    obtain ⟨h', ran, sound, spares, _⟩ :=
      Heap.writePayload_sound kept.sound used (kept.avoids used) within
    exact ⟨h', Heap.bind_of_ok ran, sound.shown, spares [] (by simp)⟩

theorem ends_eq (kept : s.Kept v) : v.ends = (· = s.heap.prologue) := by
  funext stop
  refine propext ⟨kept.plain stop, ?_⟩
  rintro rfl
  exact kept.sound.shown.terminator ▸ kept.sound.shown.filed.terminator

/-- A request is performed as its view says, and it leaves alone what is in front of the blocks. -/
theorem performs_view (kept : s.Kept v) (allowed : r.allowed s = true)
    (turn : v.perform s.heap.terms r = (answer, v')) :
    ∃ s', perform r s = .ok answer s' ∧ s'.Kept v' ∧ s.heap.Spares s'.heap [] := by
  obtain ⟨h', ran, shown, spares⟩ := kept.run_shows allowed turn
  obtain ⟨_, s', v'', performed, kept', _⟩ := kept.performs allowed
  have performed' := perform_of_ok ran
  rw [performed] at performed'
  cases performed'
  have ends : v'.ends = v.ends := by simpa only [turn] using v.ends_perform s.heap.terms r
  -- The terminator is an end before and after, so the prologue is where it was.
  have prologue : h'.prologue = s.heap.prologue := by
    apply kept.plain
    rw [← ends, ← shown.terminator]
    exact shown.filed.terminator
  have same : v'' = v' := kept'.sound.shown.unique shown
    (by rw [ends, kept.ends_eq, kept'.ends_eq, prologue])
  exact ⟨_, performed, same ▸ kept', spares⟩

end Kept

end Session

end SegregatedFit
