import SegregatedFit.Proofs.Consistency
import SegregatedFit.Session

/-!
What a session keeps up. Its leases are the blocks in use of a sound heap, each with the room it was
asked for and with the contents its owner knows of. Every allowed request keeps this up, and so does
every sequence of requests in which each is allowed when its turn comes.
-/

namespace SegregatedFit

/-- The block of `x` serves a lease: it has the room, and its payload has the known contents. -/
structure Serves {M : Type} [Memory M] (m : M) (x : Span) (l : Lease) : Prop where
  block : x.block = l.block
  room : l.size + 8 ≤ x.tag.size
  contents : ∀ i value, l.contents i = some value →
    i + 8 < x.tag.size ∧ Memory.byte m (l.block + i) = value

/-- The leases are on the blocks of `used`, one on each. -/
structure Leased {M : Type} [Memory M] (m : M) (used : List Span) (leases : List Lease) : Prop where
  live : (leases.map Lease.block).Perm (used.map Span.block)
  served : ∀ l ∈ leases, ∃ x ∈ used, Serves m x l

namespace Serves

variable {M : Type} [Memory M] {m m' : M} {x : Span} {l : Lease}

theorem spare (serves : Serves m x l)
    (same : ∀ i, x.Payload i → Memory.byte m' i = Memory.byte m i) : Serves m' x l where
  block := serves.block
  room := serves.room
  contents i value known := by
    obtain ⟨within, found⟩ := serves.contents i value known
    have block := serves.block
    exact ⟨within, (same _ ⟨by omega, by omega⟩).trans found⟩

theorem write {start : Nat} {bytes : ByteArray} (serves : Serves m x l)
    (fits : start + bytes.size + 8 ≤ x.tag.size)
    (written : ∀ i, i + 8 < x.tag.size → Memory.byte m' (x.block + i) =
      if start ≤ i ∧ i < start + bytes.size then Bytes.get bytes (i - start)
      else Memory.byte m (x.block + i)) : Serves m' x (l.write start bytes) where
  block := serves.block
  room := serves.room
  contents i value known := by
    change i + 8 < x.tag.size ∧ Memory.byte m' (l.block + i) = value
    rw [← serves.block]
    by_cases covered : start ≤ i ∧ i < start + bytes.size
    · have value_eq : Bytes.get bytes (i - start) = value := by
        simpa [Lease.write, covered] using known
      have within : i + 8 < x.tag.size := by omega
      rw [written i within, if_pos covered]
      exact ⟨within, value_eq⟩
    · have before : l.contents i = some value := by simpa [Lease.write, covered] using known
      obtain ⟨within, byte⟩ := serves.contents i value before
      rw [written i within, if_neg covered, serves.block]
      exact ⟨within, byte⟩

end Serves

namespace Leased

variable {M : Type} [Memory M] {m m' : M} {used used' : List Span} {leases : List Lease} {x : Span}
  {l : Lease}

theorem perm (leased : Leased m used leases) (same : used.Perm used') : Leased m used' leases where
  live := leased.live.trans (same.map _)
  served l member := by
    obtain ⟨x, inside, serves⟩ := leased.served l member
    exact ⟨x, same.mem_iff.mp inside, serves⟩

theorem spare (leased : Leased m used leases)
    (same : ∀ x ∈ used, ∀ i, x.Payload i → Memory.byte m' i = Memory.byte m i) :
    Leased m' used leases where
  live := leased.live
  served l member := by
    obtain ⟨x, inside, serves⟩ := leased.served l member
    exact ⟨x, inside, serves.spare (same x inside)⟩

theorem write {start : Nat} {bytes : ByteArray} (leased : Leased m used leases)
    (only : ∀ y ∈ used, y.block = x.block → y = x)
    (fits : start + bytes.size + 8 ≤ x.tag.size)
    (written : ∀ i, i + 8 < x.tag.size → Memory.byte m' (x.block + i) =
      if start ≤ i ∧ i < start + bytes.size then Bytes.get bytes (i - start)
      else Memory.byte m (x.block + i))
    (same : ∀ y ∈ used, y.block ≠ x.block → ∀ i, y.Payload i →
      Memory.byte m' i = Memory.byte m i) :
    Leased m' used (leases.map fun l => if l.block = x.block then l.write start bytes else l) where
  live := by
    have blocks : (leases.map fun l => if l.block = x.block then l.write start bytes else l).map
        Lease.block = leases.map Lease.block := by
      rw [List.map_map]
      apply List.map_congr_left
      intro l _
      by_cases here : l.block = x.block <;> simp [here, Lease.write]
    exact blocks ▸ leased.live
  served l member := by
    obtain ⟨k, old, rfl⟩ := List.mem_map.mp member
    obtain ⟨y, inside, serves⟩ := leased.served k old
    by_cases here : k.block = x.block
    · have this := only y inside (serves.block.trans here)
      subst this
      rw [if_pos here]
      exact ⟨y, inside, serves.write fits written⟩
    · rw [if_neg here]
      exact ⟨y, inside, serves.spare (same y inside fun there => here (serves.block ▸ there))⟩

theorem cons (leased : Leased m used leases) (serves : Serves m x l) :
    Leased m (x :: used) (l :: leases) where
  live := by
    rw [List.map_cons, List.map_cons, serves.block]
    exact leased.live.cons l.block
  served k member := by
    rcases List.mem_cons.mp member with rfl | later
    · exact ⟨x, List.mem_cons_self .., serves⟩
    · obtain ⟨y, inside, serves⟩ := leased.served k later
      exact ⟨y, List.mem_cons_of_mem _ inside, serves⟩

theorem without (leased : Leased m (x :: used) leases)
    (nodup : ((x :: used).map Span.block).Nodup) :
    Leased m used (Lease.without leases x.block) where
  live := by
    rw [List.map_cons, List.nodup_cons] at nodup
    have stays : ((x :: used).map Span.block).filter (· != x.block) = used.map Span.block := by
      rw [List.map_cons, List.filter_cons_of_neg (by simp), List.filter_eq_self]
      intro b member
      have : b ≠ x.block := fun same => nodup.1 (same ▸ member)
      simpa using this
    have mapped : (Lease.without leases x.block).map Lease.block =
        (leases.map Lease.block).filter (· != x.block) := by
      rw [List.filter_map]
      rfl
    rw [mapped, ← stays]
    exact leased.live.filter _
  served k member := by
    obtain ⟨old, different⟩ := List.mem_filter.mp member
    obtain ⟨y, inside, serves⟩ := leased.served k old
    rcases List.mem_cons.mp inside with rfl | later
    · simp [serves.block] at different
    · exact ⟨y, later, serves⟩

theorem known_eq_some (leased : Leased m used leases) {b i : Nat} {value : UInt8}
    (known : Lease.known leases b i = some value) :
    ∃ y ∈ used, y.block = b ∧ i + 8 < y.tag.size ∧ Memory.byte m (b + i) = value := by
  unfold Lease.known at known
  cases found : leases.find? (·.block == b) with
  | none => simp [found] at known
  | some l =>
    have same : l.block = b := by simpa using List.find?_some found
    obtain ⟨y, inside, serves⟩ := leased.served l (List.mem_of_find?_eq_some found)
    obtain ⟨within, byte⟩ := serves.contents i value (by simpa [found] using known)
    exact ⟨y, inside, serves.block.trans same, within, same ▸ byte⟩

end Leased

def Block.InPayload {M : Type} [Memory M] (m : M) (b i : Nat) : Prop :=
  b ≤ i ∧ i + Block.overhead < b + Block.sizeAt m b

namespace Session

variable {A : Type} [Arena A] {s s' : Session A} {v v' : View} {x y : Span}

structure Kept (s : Session A) (v : View) : Prop where
  sound : s.heap.Sound v
  plain : ∀ stop, v.ends stop → stop = s.heap.prologue
  leased : Leased s.heap.memory v.used s.leases

/-- Leases on other blocks than the target go on as they are, with the same bytes. -/
def Untouched (s s' : Session A) (target : Option Nat) : Prop :=
  ∀ l ∈ s.leases, target ≠ some l.block → l ∈ s'.leases ∧
    Block.sizeAt s'.heap.memory l.block = Block.sizeAt s.heap.memory l.block ∧
    ∀ i, Block.InPayload s.heap.memory l.block i →
      Memory.byte s'.heap.memory i = Memory.byte s.heap.memory i

theorem sizeAt_used {h : Heap A} (sound : h.Sound v) (live : x ∈ v.used) :
    Block.sizeAt h.memory x.block = x.tag.size :=
  Block.sizeAt_eq (sound.shown.read (View.mem_of_used live))

namespace Kept

theorem used_nodup (kept : s.Kept v) : (v.used.map Span.block).Nodup :=
  kept.sound.shown.blocks_nodup.sublist (List.filter_sublist.map _)

theorem used_of_live (kept : s.Kept v) {b : Nat} (live : b ∈ s.leases.map Lease.block) :
    ∃ x ∈ v.used, x.block = b :=
  List.mem_map.mp (kept.leased.live.mem_iff.mp live)

theorem used_of_target (kept : s.Kept v) {r : Request} (allowed : r.allowed s = true) {b : Nat}
    (aimed : r.target = some b) : ∃ x ∈ v.used, x.block = b := by
  have live := (Bool.and_eq_true_iff.mp allowed).1
  rw [aimed] at live
  exact kept.used_of_live (by simpa using live)

theorem plain_after {h : Heap A} {rest : List Span} (kept : s.Kept v) (ends : v'.ends = v.ends)
    (spares : s.heap.Spares h rest) : ∀ stop, v'.ends stop → stop = h.prologue := by
  rw [ends, spares.prologue]
  exact kept.plain

theorem avoids (kept : s.Kept v) (live : x ∈ v.used) : v.Avoids x := by
  intro stop ending
  have := kept.plain stop ending
  have := kept.sound.shown.within (View.mem_of_used live)
  omega

theorem untouched {target : Option Nat} {rest : List Span} (kept : s.Kept v)
    (sound : s'.heap.Sound v') (before : ∀ x ∈ v.used, target ≠ some x.block → x ∈ rest)
    (after : ∀ x ∈ rest, x ∈ v'.used) (spares : s.heap.Spares s'.heap rest)
    (stays : ∀ l ∈ s.leases, target ≠ some l.block → l ∈ s'.leases) :
    s.Untouched s' target := by
  intro l member other
  obtain ⟨x, live, serves⟩ := kept.leased.served l member
  rw [← serves.block] at other ⊢
  have inside := before x live other
  rw [sizeAt_used kept.sound live, sizeAt_used sound (after x inside)]
  refine ⟨stays l member (serves.block ▸ other), rfl, fun i payload => ?_⟩
  unfold Block.InPayload at payload
  rw [sizeAt_used kept.sound live] at payload
  exact spares.byte x inside i payload

end Kept

def Performs (s : Session A) (r : Request) : Prop :=
  ∃ answer s' v', perform r s = .ok answer s' ∧ s'.Kept v' ∧ s.Untouched s' r.target

theorem perform_of_ok {r : Request} {answer : Answer} {h : Heap A}
    (ran : r.run s.heap = .ok answer h) :
    perform r s = .ok answer ⟨h, r.settle s.leases answer⟩ := by
  simp only [perform, ran]

namespace Kept

theorem refused {r : Request} {answer : Answer} {h : Heap A} (kept : s.Kept v)
    (ends : v'.ends = v.ends) (ran : r.run s.heap = .ok answer h) (sound : h.Sound v')
    (spares : s.heap.Spares h v.used)
    (same_used : v'.used = v.used) (same_leases : r.settle s.leases answer = s.leases) :
    s.Performs r := by
  refine ⟨answer, _, v', perform_of_ok ran, ⟨sound, kept.plain_after ends spares, ?_⟩, ?_⟩
  · rw [same_leases, same_used]
    exact kept.leased.spare spares.byte
  · refine kept.untouched sound (fun x live _ => live) (fun x live => same_used ▸ live) spares ?_
    intro l member _
    rw [same_leases]
    exact member

theorem granted {r : Request} {answer : Answer} {h : Heap A} {l : Lease} (kept : s.Kept v)
    (ends : v'.ends = v.ends) (ran : r.run s.heap = .ok answer h) (sound : h.Sound v')
    (spares : s.heap.Spares h v.used) (perm : v'.used.Perm (y :: v.used))
    (serves : Serves h.memory y l)
    (leases : r.settle s.leases answer = l :: s.leases) : s.Performs r := by
  refine ⟨answer, _, v', perform_of_ok ran, ⟨sound, kept.plain_after ends spares, ?_⟩, ?_⟩
  · rw [leases]
    exact ((kept.leased.spare spares.byte).cons serves).perm perm.symm
  · refine kept.untouched sound (fun x live _ => live) (fun x live => ?_) spares ?_
    · exact perm.mem_iff.mpr (List.mem_cons_of_mem _ live)
    · intro l member _
      rw [leases]
      exact List.mem_cons_of_mem _ member

theorem allocate (kept : s.Kept v) (size : Nat) : s.Performs (.allocate size) := by
  obtain ⟨answer, h, v', ends, ran, sound, spares, grants⟩ := Heap.allocate_sound kept.sound size
  have run : (Request.allocate size).run s.heap = .ok (answer.map some) h := Heap.bind_of_ok ran
  cases answer with
  | error error => exact kept.refused ends run sound spares grants rfl
  | ok b =>
    obtain ⟨y, rfl, perm, room, _⟩ := grants
    exact kept.granted ends run sound spares perm ⟨rfl, room, by simp⟩ rfl

theorem allocateZeroed (kept : s.Kept v) (count size : Nat) :
    s.Performs (.allocateZeroed count size) := by
  obtain ⟨answer, h, v', ends, ran, sound, spares, grants, zeros⟩ :=
    Heap.allocateZeroed_sound kept.sound count size
  have run : (Request.allocateZeroed count size).run s.heap = .ok (answer.map some) h :=
    Heap.bind_of_ok ran
  cases answer with
  | error error => exact kept.refused ends run sound spares grants rfl
  | ok b =>
    obtain ⟨y, rfl, perm, room, _⟩ := grants
    have live : y ∈ v'.used := perm.mem_iff.mpr (List.mem_cons_self ..)
    refine kept.granted ends run sound spares perm ⟨rfl, room, fun i value known => ?_⟩ rfl
    by_cases below : i < count * size
    · have zero : (0 : UInt8) = value := by simpa [below] using known
      exact ⟨by omega, (zeros y live rfl i (by omega)).trans zero⟩
    · simp [below] at known

theorem mem_without {leases : List Lease} {l : Lease} {b : Nat} (member : l ∈ leases)
    (other : some b ≠ some l.block) : l ∈ Lease.without leases b := by
  refine List.mem_filter.mpr ⟨member, ?_⟩
  have : l.block ≠ b := fun same => other (congrArg some same.symm)
  simpa using this

theorem mem_rest {rest : List Span} (perm : v.used.Perm (x :: rest)) :
    ∀ z ∈ v.used, some x.block ≠ some z.block → z ∈ rest := by
  intro z live other
  rcases List.mem_cons.mp (perm.mem_iff.mp live) with rfl | inside
  · exact absurd rfl other
  · exact inside

theorem leased_rest {rest : List Span} (kept : s.Kept v) (perm : v.used.Perm (x :: rest)) :
    Leased s.heap.memory rest (Lease.without s.leases x.block) :=
  (kept.leased.perm perm).without ((perm.map _).nodup_iff.mp kept.used_nodup)

theorem freed {r : Request} {answer : Answer} {h : Heap A} (kept : s.Kept v)
    (ends : v'.ends = v.ends) (ran : r.run s.heap = .ok answer h) (sound : h.Sound v')
    (spares : s.heap.Spares h v'.used) (perm : v.used.Perm (x :: v'.used))
    (target : r.target = some x.block)
    (leases : r.settle s.leases answer = Lease.without s.leases x.block) : s.Performs r := by
  refine ⟨answer, _, v', perform_of_ok ran, ⟨sound, kept.plain_after ends spares, ?_⟩, ?_⟩
  · rw [leases]
    exact (kept.leased_rest perm).spare spares.byte
  · rw [target, leases]
    exact kept.untouched sound (mem_rest perm) (fun _ => id) spares fun l member other =>
      mem_without member other

theorem release (kept : s.Kept v) {b : Nat} (live : b ∈ s.leases.map Lease.block) :
    s.Performs (.release (some b)) := by
  obtain ⟨x, used, rfl⟩ := kept.used_of_live live
  obtain ⟨h, v', ends, ran, sound, spares, perm⟩ :=
    Heap.releaseBlock_sound kept.sound used (kept.avoids used)
  have run : (Request.release (some x.block)).run s.heap = .ok (.ok none) h := Heap.bind_of_ok ran
  exact kept.freed ends run sound spares perm rfl rfl

theorem reallocate (kept : s.Kept v) {b : Nat} (live : b ∈ s.leases.map Lease.block)
    (size : Nat) : s.Performs (.reallocate (some b) size) := by
  obtain ⟨x, used, rfl⟩ := kept.used_of_live live
  obtain ⟨answer, h, v', ends, ran, sound, resizes⟩ :=
    Heap.reallocate_sound kept.sound used (kept.avoids used) size
  have run : (Request.reallocate (some x.block) size).run s.heap = .ok answer h := ran
  rcases answer with error | ⟨_ | b⟩
  · exact kept.refused ends run sound resizes.2 resizes.1 rfl
  · exact kept.freed ends run sound resizes.2 resizes.1 rfl rfl
  · obtain ⟨y, rest, rfl, old_perm, new_perm, room, spares, copied⟩ := resizes
    refine ⟨.ok (some y.block), _, v', perform_of_ok run,
      ⟨sound, kept.plain_after ends spares, ?_⟩, ?_⟩
    · refine (((kept.leased_rest old_perm).spare spares.byte).cons ⟨rfl, room, ?_⟩).perm
        new_perm.symm
      intro i value known
      by_cases below : i < size
      · have known : Lease.known s.leases x.block i = some value := by simpa [below] using known
        obtain ⟨z, live, here, inside, byte⟩ := kept.leased.known_eq_some known
        have same := kept.sound.shown.eq_of_used live used here
        subst same
        exact ⟨by omega, (copied i below inside).trans byte⟩
      · simp [below] at known
    · refine kept.untouched sound (mem_rest old_perm) (fun z member => ?_) spares ?_
      · exact new_perm.mem_iff.mpr (List.mem_cons_of_mem _ member)
      · exact fun l member other => List.mem_cons_of_mem _ (mem_without member other)

theorem reallocate_none (kept : s.Kept v) (size : Nat) : s.Performs (.reallocate none size) := by
  by_cases nothing : size = 0
  · have run : (Request.reallocate none size).run s.heap = .ok (.ok none) s.heap := by
      simp only [Request.run, Heap.reallocate, if_pos nothing]
      rfl
    exact kept.refused rfl run kept.sound (.refl _ _) rfl rfl
  · obtain ⟨answer, h, v', ends, ran, sound, spares, grants⟩ :=
      Heap.allocate_sound kept.sound size
    have run : (Request.reallocate none size).run s.heap = .ok (answer.map some) h := by
      simp only [Request.run, Heap.reallocate, if_neg nothing]
      exact Heap.bind_of_ok ran
    cases answer with
    | error error => exact kept.refused ends run sound spares grants rfl
    | ok b =>
      obtain ⟨y, rfl, perm, room, _⟩ := grants
      exact kept.granted ends run sound spares perm ⟨rfl, room, by simp⟩ rfl

theorem write {start : Nat} {bytes : ByteArray} (kept : s.Kept v) (live : x ∈ v.used)
    (fits : start + bytes.size + 8 ≤ x.tag.size) : s.Performs (.write x.block start bytes) := by
  obtain ⟨h, ran, sound, spares, written⟩ :=
    Heap.writePayload_sound kept.sound live (kept.avoids live) fits
  have run : (Request.write x.block start bytes).run s.heap = .ok (.ok none) h :=
    Heap.bind_of_ok ran
  have others : ∀ y ∈ v.used.filter (fun y => y.block != x.block),
      y ∈ v.used ∧ y.block ≠ x.block := by
    intro y member
    simpa using member
  have other : ∀ y ∈ v.used, y.block ≠ x.block → y ∈ v.used.filter (·.block != x.block) := by
    intro y used different
    simpa using ⟨used, different⟩
  have spared := spares _ others
  have leased := kept.leased.write
    (fun y used same => kept.sound.shown.eq_of_used used live same) fits written
    fun y used different => spared.byte y (other y used different)
  refine ⟨.ok none, _, v, perform_of_ok run, ⟨sound, kept.plain_after rfl spared, leased⟩, ?_⟩
  refine kept.untouched sound (fun z used apart => ?_) (fun z member => (others z member).1)
    spared fun l member apart => ?_
  · exact other z used fun same => apart (congrArg some same.symm)
  · exact List.mem_map.mpr ⟨l, member, if_neg fun same => apart (congrArg some same.symm)⟩

/-- Every allowed request is answered, and the session keeps up what it keeps up. -/
theorem performs (kept : s.Kept v) {r : Request} (allowed : r.allowed s = true) :
    s.Performs r := by
  obtain ⟨live, fits⟩ := Bool.and_eq_true_iff.mp allowed
  have live : ∀ b, r.target = some b → b ∈ s.leases.map Lease.block := by
    intro b aimed
    rw [aimed] at live
    simpa using live
  cases r with
  | allocate size => exact kept.allocate size
  | allocateZeroed count size => exact kept.allocateZeroed count size
  | release block =>
    cases block with
    | none =>
      have run : (Request.release none).run s.heap = .ok (.ok none) s.heap := rfl
      exact kept.refused rfl run kept.sound (.refl _ _) rfl rfl
    | some b => exact kept.release (live b rfl)
  | reallocate block size =>
    cases block with
    | none => exact kept.reallocate_none size
    | some b => exact kept.reallocate (live b rfl) size
  | write b start bytes =>
    obtain ⟨x, used, rfl⟩ := kept.used_of_live (live b rfl)
    simp only [Request.fits, kept.sound.read_payloadSize used, decide_eq_true_eq] at fits
    have room := kept.sound.shown.room_eight x (View.mem_of_used used)
    exact kept.write used (by omega)

end Kept

theorem play_cons {r : Request} {rest : List Request} {answer : Answer} {answers : List Answer}
    {s₁ : Session A} (performed : perform r s = .ok answer s₁)
    (played : play rest s₁ = .ok answers s') : play (r :: rest) s = .ok (answer :: answers) s' := by
  simp only [play, bind, EStateM.bind, performed, played]
  rfl

theorem of_play_cons {r : Request} {rest : List Request} {answers : List Answer}
    (played : play (r :: rest) s = .ok answers s') :
    ∃ answer s₁ later, perform r s = .ok answer s₁ ∧ play rest s₁ = .ok later s' ∧
      answers = answer :: later := by
  simp only [play, bind, EStateM.bind] at played
  cases performed : perform r s with
  | error fault s₁ => simp [performed] at played
  | ok answer s₁ =>
    simp only [performed] at played
    cases ran : play rest s₁ with
    | error fault s₂ => simp [ran] at played
    | ok later s₂ =>
      simp only [ran] at played
      cases played
      exact ⟨answer, s₁, later, rfl, ran, rfl⟩

theorem honours_tail {r : Request} {rest : List Request} {answer : Answer}
    (honoured : honours (r :: rest) s = true) (performed : perform r s = .ok answer s') :
    honours rest s' = true := by
  obtain ⟨_, later⟩ := Bool.and_eq_true_iff.mp honoured
  simpa only [performed] using later

theorem play_kept (kept : s.Kept v) {requests : List Request} (honoured : honours requests s = true) :
    ∃ answers s' v', play requests s = .ok answers s' ∧ answers.length = requests.length ∧
      s'.Kept v' := by
  induction requests generalizing s v with
  | nil => exact ⟨[], s, v, rfl, rfl, kept⟩
  | cons r rest ih =>
    obtain ⟨answer, s₁, v₁, ran, kept₁, _⟩ := kept.performs (Bool.and_eq_true_iff.mp honoured).1
    obtain ⟨answers, s₂, v₂, ran₂, length, kept₂⟩ := ih kept₁ (honours_tail honoured ran)
    exact ⟨answer :: answers, s₂, v₂, play_cons ran ran₂, congrArg (· + 1) length, kept₂⟩

/-- Any beginning of requests that keep to the rules keeps to them, so what holds after all such
requests holds after each of them. -/
theorem honours_of_append {first rest : List Request} (honoured : honours (first ++ rest) s = true) :
    honours first s = true := by
  induction first generalizing s with
  | nil => rfl
  | cons r first ih =>
    obtain ⟨allowed, later⟩ := Bool.and_eq_true_iff.mp honoured
    rw [honours, allowed, Bool.true_and]
    cases ran : perform r s with
    | ok answer s' =>
      simp only [ran] at later
      exact ih later
    | error fault s' => rfl

end Session

end SegregatedFit
