import Mathlib.Data.List.Basic

/-!
# Files read piece by piece

A call of `read` asks for a number of bytes and is given some of them: one at least, as long as the
file has not ended, but perhaps fewer than it asked for. It may also be interrupted, and then it is
made again, or fail. `Reader` is a file together with what happens at the calls to come, and
`Reader.fill` is the loop that calls until a buffer is full.

How the file is cut into pieces does not matter (`Reader.fill_eq`): unless a call fails, the buffer
receives the bytes that come next, or the loop stops at the end of the file with what was left.

The replies are a list and not a function of the call's number, and after the last of them every
call is given all that it asks for. So the loop ends, since each turn consumes a reply or a byte,
and an interruption that goes on for ever is left out; a real reader would not return from it
either. The file does not change while it is read. What reads it here are runs of a flush, which
only the flush itself writes, and it has finished writing them.
-/

namespace Fault

/-- What happens at one call of `read`. -/
inductive Reply where
  /-- The call is given so many bytes and one more, if it asks for them and they are there. -/
  | upTo (n : ℕ)
  | interrupted
  | fails
  deriving DecidableEq, Repr

/-- What one call of `read` returns. -/
inductive Chunk (β : Type) where
  | bytes (bs : List β)
  | interrupted
  | fails

/-- What filling a buffer comes to. -/
inductive Filled (β : Type) where
  | full (bs : List β)
  /-- The file ended before. -/
  | short (bs : List β)
  | failed

/-- What is left of a file, and what happens at the calls to come. After these, every call is given
all it asks for. -/
structure Reader (β : Type) where
  input : List β
  replies : List Reply := []

namespace Reader

variable {β : Type}

/-- No call fails. -/
def Sound (r : Reader β) : Prop := ∀ reply ∈ r.replies, reply ≠ .fails

/-- One call, for at most `want` bytes. -/
def read (r : Reader β) (want : ℕ) : Chunk β × Reader β :=
  match r.replies with
  | [] => (.bytes (r.input.take want), ⟨r.input.drop want, []⟩)
  | .upTo n :: rest =>
    (.bytes (r.input.take (min want (n + 1))), ⟨r.input.drop (min want (n + 1)), rest⟩)
  | .interrupted :: rest => (.interrupted, ⟨r.input, rest⟩)
  | .fails :: rest => (.fails, ⟨r.input, rest⟩)

/-- What a call has left: `bs` have been read, and one reply has been used if there was one. -/
structure Left (r : Reader β) (bs : List β) (r' : Reader β) : Prop where
  input : r.input = bs ++ r'.input
  replies : r'.replies = r.replies.tail

theorem left_of_read {r r' : Reader β} {want : ℕ} {chunk : Chunk β}
    (h : r.read want = (chunk, r')) :
    match chunk with
    | .bytes bs => Left r bs r' ∧ bs.length ≤ want ∧ (bs = [] → 0 < want → r.input = [])
    | _ => Left r [] r' ∧ r.replies ≠ [] := by
  obtain ⟨input, replies⟩ := r
  have hbytes : ∀ n : ℕ, (input.take n).length ≤ n ∧ (input.take n = [] → 0 < n → input = []) :=
    fun n ↦ ⟨List.length_take_le n input, fun hnil hn ↦ by
      rcases List.take_eq_nil_iff.1 hnil with rfl | hnil
      · exact absurd hn (Nat.lt_irrefl 0)
      · exact hnil⟩
  rcases replies with _ | ⟨_ | _ | _, rest⟩ <;> cases h
  · exact ⟨⟨(List.take_append_drop _ _).symm, rfl⟩, hbytes want⟩
  · rename_i n
    refine ⟨⟨(List.take_append_drop _ _).symm, rfl⟩, ?_, fun hnil hwant ↦ ?_⟩
    · exact Nat.le_trans (hbytes _).1 (Nat.min_le_left _ _)
    · exact (hbytes _).2 hnil (Nat.lt_min.2 ⟨hwant, n.succ_pos⟩)
  · exact ⟨⟨rfl, rfl⟩, List.cons_ne_nil _ _⟩
  · exact ⟨⟨rfl, rfl⟩, List.cons_ne_nil _ _⟩

/-- Read until `want` bytes have been got, the file ends, or a call fails. -/
def fill (want : ℕ) (got : List β) (r : Reader β) : Filled β × Reader β :=
  if got.length < want then
    match _ : r.read (want - got.length) with
    | (.bytes [], r') => (.short got, r')
    | (.bytes (b :: bs), r') => fill want (got ++ b :: bs) r'
    | (.interrupted, r') => fill want got r'
    | (.fails, r') => (.failed, r')
  else
    (.full got, r)
termination_by r.replies.length + (want - got.length)
decreasing_by
  · next hread =>
    obtain ⟨hleft, -, -⟩ := left_of_read hread
    rw [hleft.replies, List.length_tail, List.length_append, List.length_cons]
    omega
  · next hread =>
    obtain ⟨hleft, hne⟩ := left_of_read hread
    have := List.length_pos_iff.2 hne
    rw [hleft.replies, List.length_tail]
    omega

theorem Left.sound {r r' : Reader β} {bs : List β} (h : Left r bs r') (hr : r.Sound) : r'.Sound :=
  fun reply hreply ↦ hr reply (List.mem_of_mem_tail (h.replies ▸ hreply))

/-- **Filling a buffer**, however the file is cut into pieces: the bytes that come next, or what was
left of the file. -/
theorem fill_eq {want : ℕ} {got : List β} {r : Reader β} (hgot : got.length ≤ want) (hr : r.Sound) :
    ∃ r', r'.Sound ∧ r'.input = (got ++ r.input).drop want ∧
      fill want got r = (if want ≤ (got ++ r.input).length then .full ((got ++ r.input).take want)
        else .short (got ++ r.input), r') := by
  fun_induction fill want got r with
  | case1 got r hlt r' hread =>
    -- the file has ended
    obtain ⟨hleft, -, hend⟩ := left_of_read hread
    have hinput : r.input = [] := hend rfl (Nat.sub_pos_of_lt hlt)
    refine ⟨r', hleft.sound hr, ?_, ?_⟩
    · rw [← List.nil_append r'.input, ← hleft.input, hinput, List.append_nil,
        List.drop_of_length_le hgot]
    · rw [hinput, List.append_nil, if_neg (Nat.not_le_of_lt hlt)]
  | case2 got r hlt b bs r' hread ih =>
    obtain ⟨hleft, hle, -⟩ := left_of_read hread
    have hall : got ++ r.input = (got ++ b :: bs) ++ r'.input := by
      rw [hleft.input, List.append_assoc]
    rw [hall]
    refine ih ?_ (hleft.sound hr)
    rw [List.length_append]
    omega
  | case3 got r hlt r' hread ih =>
    obtain ⟨hleft, -⟩ := left_of_read hread
    rw [hleft.input, List.nil_append]
    exact ih hgot (hleft.sound hr)
  | case4 got r hlt r' hread =>
    -- no call fails
    obtain ⟨input, replies⟩ := r
    rcases replies with _ | ⟨_ | _ | _, rest⟩ <;> cases hread
    exact absurd rfl (hr .fails List.mem_cons_self)
  | case5 got r hlt =>
    have hlen : got.length = want := Nat.le_antisymm hgot (Nat.le_of_not_lt hlt)
    refine ⟨r, hr, ?_, ?_⟩
    · rw [List.drop_left' hlen]
    · rw [if_pos, List.take_left' hlen]
      rw [List.length_append, hlen]
      exact Nat.le_add_right _ _

end Reader

end Fault
