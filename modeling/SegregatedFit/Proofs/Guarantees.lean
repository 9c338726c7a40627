import SegregatedFit.Arena.Buffer
import SegregatedFit.Proofs.Checking
import SegregatedFit.Proofs.Sessions

/-!
What a heap guarantees to clients that keep to its rules, over all arenas, configurations and
sequences of requests: it answers every request, it stays consistent, and live blocks are isolated
from each other and from the tags and links of the heap.
-/

namespace SegregatedFit

namespace Session

variable {A : Type} [Arena A] {arena : A} {config : Config} {journal entries : Array Entry}
  {h : Heap A} {s : Session A} {v : View} {requests : List Request}

/-- The payloads of live blocks: where they lie, what they are apart from, and what is in them. -/
structure Isolated (s : Session A) (spans : List Span) : Prop where
  chain : s.heap.chain = .ok spans
  live : (s.leases.map Lease.block).Perm
    ((spans.filter fun x => x.tag.allocated).map Span.block)
  aligned : ∀ l ∈ s.leases, l.block % 8 = 0
  room : ∀ l ∈ s.leases, ∃ size, Block.payloadSize s.heap.memory l.block = .ok size ∧
    l.size ≤ size ∧ l.block + size ≤ Memory.size s.heap.memory
  untagged : ∀ l ∈ s.leases, ∀ i, Block.InPayload s.heap.memory l.block i →
    s.heap.prologue + 4 ≤ i ∧ i + 4 < Memory.size s.heap.memory ∧ ∀ y ∈ spans, ¬y.InTags i
  disjoint : s.leases.Pairwise fun l k => ∀ i, Block.InPayload s.heap.memory l.block i →
    ¬Block.InPayload s.heap.memory k.block i
  contents : ∀ l ∈ s.leases, ∀ i value, l.contents i = some value →
    Block.InPayload s.heap.memory l.block (l.block + i) ∧
      Memory.byte s.heap.memory (l.block + i) = value

theorem kept_opened (created : Heap.create arena config journal = .ok (.ok h) entries)
    (chunk : 16 ≤ config.chunkSize) :
    Kept ⟨h, []⟩ (View.opened (Memory.size arena) config.chunkSize journal) := by
  obtain ⟨v, rfl, shown, settled, unused, small, same, valid, _, plain⟩ :=
    Heap.create_shows created chunk
  refine ⟨⟨shown, settled, small, ?_⟩, plain, ⟨?_, by simp⟩⟩
  · rw [same]
    exact valid
  · rw [unused]
    rfl

theorem kept_start (created : Heap.create arena config journal = .ok (.ok h) entries)
    (chunk : 16 ≤ config.chunkSize) : ∃ v, Kept ⟨h, []⟩ v :=
  ⟨_, kept_opened created chunk⟩

namespace Kept

theorem small (kept : s.Kept v) : Memory.size s.heap.memory < 1 <<< 63 :=
  Nat.lt_of_le_of_lt kept.sound.small (by decide)

theorem consistent (kept : s.Kept v) :
    s.heap.Consistent v.spans v.files fun _ => s.heap.prologue :=
  kept.sound.consistent_of_prologue kept.plain

theorem chain_eq (kept : s.Kept v) : s.heap.chain = .ok v.spans := kept.sound.chain_eq

theorem usage_eq (kept : s.Kept v) : s.heap.usage =
    .ok (v.spans.foldl Usage.count { heapSize := Memory.size s.heap.memory }) :=
  kept.consistent.usage_eq (Nat.lt_of_lt_of_le kept.small (by decide))

theorem isolated (kept : s.Kept v) : s.Isolated v.spans := by
  have shown := kept.sound.shown
  have payload : ∀ x ∈ v.used, ∀ i, Block.InPayload s.heap.memory x.block i → x.Payload i := by
    intro x used i inside
    unfold Block.InPayload at inside
    rw [sizeAt_used kept.sound used] at inside
    exact inside
  refine ⟨kept.chain_eq, kept.leased.live, ?_, ?_, ?_, ?_, ?_⟩
  · intro l member
    obtain ⟨x, used, serves⟩ := kept.leased.served l member
    exact serves.block ▸ shown.aligned x (View.mem_of_used used)
  · intro l member
    obtain ⟨x, used, serves⟩ := kept.leased.served l member
    have bounds := shown.within (View.mem_of_used used)
    have room := serves.room
    rw [← serves.block]
    exact ⟨x.tag.size - 8, kept.sound.read_payloadSize used, by omega, by omega⟩
  · intro l member i inside
    obtain ⟨x, used, serves⟩ := kept.leased.served l member
    have spans := View.mem_of_used used
    have bounds := shown.within spans
    have whole := payload x used i (serves.block ▸ inside)
    refine ⟨?_, ?_, fun y other =>
      shown.chained.tiles.not_inTags shown.room_eight spans other whole⟩ <;>
      unfold Span.Payload at whole <;> omega
  · have nodup : (s.leases.map Lease.block).Nodup := kept.leased.live.nodup_iff.mpr kept.used_nodup
    refine (List.pairwise_map.mp nodup).imp_of_mem fun {l k} first second different i inside => ?_
    obtain ⟨x, used, serves⟩ := kept.leased.served l first
    obtain ⟨y, used', serves'⟩ := kept.leased.served k second
    rw [← serves.block] at different inside
    rw [← serves'.block] at different ⊢
    exact fun shared => shown.payloads_apart used used' different (payload x used i inside)
      (payload y used' i shared)
  · intro l member i value known
    obtain ⟨x, used, serves⟩ := kept.leased.served l member
    obtain ⟨inside, byte⟩ := serves.contents i value known
    refine ⟨?_, byte⟩
    unfold Block.InPayload Block.overhead
    rw [← serves.block, sizeAt_used kept.sound used]
    omega

end Kept

def feasible (arena : A) (config : Config) (journal : Array Entry) (requests : List Request) : Bool :=
  match Heap.create arena config journal with
  | .ok (.ok h) _ => honours requests ⟨h, []⟩
  | .ok (.error _) _ | .error _ _ => false

theorem feasible_iff : feasible arena config journal requests = true ↔
    ∃ h entries, Heap.create arena config journal = .ok (.ok h) entries ∧
      honours requests ⟨h, []⟩ = true := by
  unfold feasible
  cases Heap.create arena config journal with
  | error fault entries => simp
  | ok answer entries =>
    cases answer with
    | error error => simp
    | ok h => simp

def errands : List Request :=
  [.allocate 5, .write 16 3 ⟨#[7, 9]⟩, .reallocate (some 16) 20, .allocate (1 <<< 64 - 1)]

theorem errands_honoured :
    ∃ h entries, Heap.create (Buffer.new 96) ⟨128, 32⟩ #[] = .ok (.ok h) entries ∧
      honours errands ⟨h, []⟩ = true :=
  feasible_iff.mp (by decide +kernel)

/-- After requests that keep to the rules the heap is consistent, all of its lists end at the
prologue, and the checker finds nothing. By `honours_of_append` it is so after each request. -/
theorem play_consistent (created : Heap.create arena config journal = .ok (.ok h) entries)
    (chunk : 16 ≤ config.chunkSize) (honoured : honours requests ⟨h, []⟩ = true) :
    ∃ answers s, play requests ⟨h, []⟩ = .ok answers s ∧
      (∃ spans files, s.heap.Consistent spans files fun _ => s.heap.prologue) ∧
      s.heap.violations = .ok [] := by
  obtain ⟨v, start⟩ := kept_start created chunk
  obtain ⟨answers, s, v', played, _, kept⟩ := play_kept start honoured
  have consistent := kept.consistent
  exact ⟨answers, s, played, ⟨v'.spans, v'.files, consistent⟩, consistent.violations_eq kept.small⟩

theorem errands_consistent :
    ∃ h entries, Heap.create (Buffer.new 96) ⟨128, 32⟩ #[] = .ok (.ok h) entries ∧
      16 ≤ (⟨128, 32⟩ : Config).chunkSize ∧ honours errands ⟨h, []⟩ = true ∧
      ∃ answers s, play errands ⟨h, []⟩ = .ok answers s ∧
        (∃ spans files, s.heap.Consistent spans files fun _ => s.heap.prologue) ∧
        s.heap.violations = .ok [] := by
  obtain ⟨h, entries, created, honoured⟩ := errands_honoured
  exact ⟨h, entries, created, by decide, honoured, play_consistent created (by decide) honoured⟩

/-- After requests that keep to the rules the live payloads are isolated and hold what was last
written to them. No allowed request changes a byte of a live block that it is not about. -/
theorem play_isolated (created : Heap.create arena config journal = .ok (.ok h) entries)
    (chunk : 16 ≤ config.chunkSize) (honoured : honours requests ⟨h, []⟩ = true) :
    ∃ answers s, play requests ⟨h, []⟩ = .ok answers s ∧ (∃ spans, s.Isolated spans) ∧
      ∀ r, r.allowed s = true →
        ∃ answer s', perform r s = .ok answer s' ∧ s.Untouched s' r.target := by
  obtain ⟨v, start⟩ := kept_start created chunk
  obtain ⟨answers, s, v', played, _, kept⟩ := play_kept start honoured
  refine ⟨answers, s, played, ⟨v'.spans, kept.isolated⟩, fun r allowed => ?_⟩
  obtain ⟨answer, s', _, performed, _, untouched⟩ := kept.performs allowed
  exact ⟨answer, s', performed, untouched⟩

theorem errands_isolated :
    ∃ h entries, Heap.create (Buffer.new 96) ⟨128, 32⟩ #[] = .ok (.ok h) entries ∧
      16 ≤ (⟨128, 32⟩ : Config).chunkSize ∧ honours errands ⟨h, []⟩ = true ∧
      ∃ answers s, play errands ⟨h, []⟩ = .ok answers s ∧ (∃ spans, s.Isolated spans) ∧
        ∀ r, r.allowed s = true →
          ∃ answer s', perform r s = .ok answer s' ∧ s.Untouched s' r.target := by
  obtain ⟨h, entries, created, honoured⟩ := errands_honoured
  exact ⟨h, entries, created, by decide, honoured, play_isolated created (by decide) honoured⟩

/-- Requests that keep to the rules are answered to the last one, whatever sizes they ask for. The
heap stays as small as a tag can say, and so does any block that could come of merging. -/
theorem play_answers (created : Heap.create arena config journal = .ok (.ok h) entries)
    (chunk : 16 ≤ config.chunkSize) (honoured : honours requests ⟨h, []⟩ = true) :
    ∃ answers s, play requests ⟨h, []⟩ = .ok answers s ∧ answers.length = requests.length ∧
      Memory.size s.heap.memory ≤ Tag.maxSize ∧
      ∃ spans, s.heap.chain = .ok spans ∧ (spans.map fun x => x.tag.size).sum ≤ Tag.maxSize := by
  obtain ⟨v, start⟩ := kept_start created chunk
  obtain ⟨answers, s, v', played, length, kept⟩ := play_kept start honoured
  have total := kept.sound.shown.chained.tiles.sum_sizes
  have small := kept.sound.small
  exact ⟨answers, s, played, length, small, v'.spans, kept.chain_eq, by omega⟩

theorem errands_answered :
    ∃ h entries, Heap.create (Buffer.new 96) ⟨128, 32⟩ #[] = .ok (.ok h) entries ∧
      16 ≤ (⟨128, 32⟩ : Config).chunkSize ∧ honours errands ⟨h, []⟩ = true ∧
      ∃ answers s, play errands ⟨h, []⟩ = .ok answers s ∧ answers.length = errands.length ∧
        Memory.size s.heap.memory ≤ Tag.maxSize ∧
        ∃ spans, s.heap.chain = .ok spans ∧
          (spans.map fun x => x.tag.size).sum ≤ Tag.maxSize := by
  obtain ⟨h, entries, created, honoured⟩ := errands_honoured
  exact ⟨h, entries, created, by decide, honoured, play_answers created (by decide) honoured⟩

end Session

end SegregatedFit
