import Mathlib.Algebra.Order.BigOperators.Group.Finset
import Orc.Engine.Effects
import Orc.Flush.Account
import Orc.Flush.Output

/-!
# Rejects over repeated flushes

The frames a flush rejects are appended to `rejects/` while it decodes, before the manifest is
committed. The Parquet files of an attempt that is given up are overwritten by the next one, because
their names are a function of the segments; the rejects it has recorded stay, because their files
are opened for appending, and the next attempt records them again. So the output of a flush can be
replayed and its rejects cannot (`replay_repeats_rejects`).

## Silent attempts

A flush only ever appends to `rejects/`, however it ends (`run_grows`), and one that commits appends
the refused pieces of the segments it consumes, in order, as long as they fit under the cap
(`run_rejects`). What is left is to say which attempts append nothing. `Attempt.Silent` says it of
what an attempt is given: it reads no segment, none of its calls on `rejects/` succeeds, or nothing
it could record fits under its cap. `replay_rejects_eq` is the result for attempts that are silent,
with anything in between that leaves `rejects/` and the segments alone. There is no converse: under
a cap the bytes of an attempt can push out as many bytes of the flush that commits.

All of this walks the first phase of a flush with `Gathered.Phase.triple`. What the sink does is
asked for one piece at a time (`decodeSegments_keeps`), and with a predicate of the sink and the
directory together, because whether a piece is recorded depends on what the sink has measured.
-/

namespace Orc

open Bytes Fault Order

/-! ## What a flush leaves alone -/

/-- A predicate that looks at the segments and at `rejects/` only. -/
def OfLog (P : Disk → Prop) : Prop := ∀ d d', d'.wal = d.wal → d'.rejects = d.rejects → P d → P d'

/-- A predicate that stays true when a segment goes away. -/
def AllowsRemoval (P : Disk → Prop) : Prop := ∀ d id, P d → P { d with wal := d.wal.erase id }

section Frame

variable {o : Oracle Op} {P : Disk → Prop}

theorem OfLog.ignoresRuns (hP : OfLog P) : IgnoresRuns P := fun d _ ↦ hP d _ rfl rfl

theorem OfLog.quarantined (hP : OfLog P) (herase : AllowsRemoval P) {d : Disk} (h : P d) (id : ℕ)
    (b : Bytes) : P (d.quarantined id b) :=
  hP { d with wal := d.wal.erase id } _ rfl rfl (herase d id h)

theorem OfLog.ignored (hP : OfLog P) (t : Target) : t.Ignored P := fun _ d _ ↦ hP d _ rfl rfl

theorem stage_consumed (hP : OfLog P) (config : Config) (g : Gathered) (first last : ℕ) :
    Triple o P (stage config g first last)
      (fun plan d ↦ P d ∧ plan.outcome.segmentsConsumed = g.consumed) (fun _ ↦ P) P :=
  (stage_keeps (N := fun _ ↦ True) (B := fun _ ↦ True) hP.ignoresRuns (fun _ _ ↦ hP.ignored _)
    (fun _ _ _ ↦ trivial) g).conseq (fun _ hd ↦ ⟨hd, fun _ _ ↦ trivial⟩)
    (fun _ _ hd ↦ ⟨hd.1, hd.2.consumed⟩) (fun _ _ ↦ id) fun _ ↦ id

theorem publish_keeps (hP : OfLog P) (herase : AllowsRemoval P) (m : Manifest) (plan : Plan) :
    Keeps o P (publish m plan) := by
  have hcommit : Keeps o P (m.commit (some (plan.ids, plan.staged))) := by
    refine (Manifest.commit_triple (fun d f ↦ hP d _ rfl rfl) m _).conseq (fun _ ↦ id) ?_ ?_ ?_
    · rintro _ d ⟨d₁, hd₁, rfl⟩
      exact hP d₁ _ rfl rfl hd₁
    · rintro _ d ⟨-, ⟨hd, -⟩ | ⟨⟨d₁, hd₁, rfl⟩, -⟩⟩
      · exact hd
      · exact hP d₁ _ rfl rfl hd₁
    · rintro d (hd | ⟨d₁, hd₁, rfl⟩)
      · exact hd
      · exact hP d₁ _ rfl rfl hd₁
  have hpromote : ∀ p, Keeps o P (promote p) := fun p ↦
    promote_triple (.of_keeps _ o P ioError) (fun _ ↦ id) (fun _ ↦ id) (fun _ hd _ ↦ hd)
      fun d f hd _ ↦ hP d _ rfl rfl hd
  have hdelete : Keeps o P (deleteSegments plan.ids) :=
    (Keeps.forM (fun id ↦ Io.step_keeps fun d hd ↦ herase d id hd) _).bind fun _ ↦ Io.touch_keeps _
  have hviews : Keeps o P (regenerateViews m plan.touched) := by
    refine .forM (fun name ↦ Io.ignore_triple ((Io.touch_keeps _).bind fun _ ↦
      Io.step_keeps fun d hd ↦ ?_)) _
    exact hP d _ rfl rfl hd
  exact hcommit.bind fun _ ↦ (Keeps.forM hpromote _).bind fun _ ↦ hdelete.bind fun _ ↦ hviews

/-- The first phase keeps what the sink keeps, one piece after the other. Only pieces of the
segments that are decoded are given to it. -/
theorem decodeSegments_keeps {crc : Bytes → UInt32} {m : Manifest} {S : RejectSink → Disk → Prop}
    {F : Bytes → Prop} (hS : ∀ s, OfLog (S s)) (herase : ∀ s, AllowsRemoval (S s))
    (hP : ∀ s d, S s d → P d) {ids : List ℕ}
    (hpieces : ∀ s d, S s d → ∀ id ∈ ids, ∀ f, d.wal[id]? = some f →
      ∀ b ∈ refused f.bytes (pieces crc m f.bytes), F b)
    (happend : ∀ s segment b, F b → Triple o (S s) (s.append segment b) S (fun _ ↦ P) P)
    (budget : ℕ) (g : Gathered) :
    Triple o (S g.rejects) (g.decodeSegments crc m budget ids) (fun g' ↦ S g'.rejects) (fun _ ↦ P)
      P := by
  have happendAll : ∀ (bs : List Bytes), (∀ b ∈ bs, F b) → ∀ s segment,
      Triple o (S s) (s.appendAll segment bs) S (fun _ ↦ P) P := by
    intro bs
    induction bs with
    | nil => exact fun _ s segment ↦ .ret fun _ ↦ id
    | cons b bs ih =>
      intro hbs s segment
      rw [List.forall_mem_cons] at hbs
      exact .bind (happend s segment b hbs.1) fun s' ↦ ih hbs.2 s' segment
  let I : List ℕ → Gathered → Disk → Prop := fun rest g d ↦
    S g.rejects d ∧ ∀ id ∈ rest, id ∈ ids
  have hphase : Gathered.Phase o crc m budget I I (fun g ↦ S g.rejects) (fun _ ↦ P) P := by
    refine ⟨fun id rest g ↦ ?_, fun hd ↦ hP _ _ hd.1, fun {id rest g d f e} hd hf _ ↦ ?_,
      fun hd hf _ _ ↦ ?_, fun {id rest g d f hid} hd hf hheader ↦ ?_,
      fun rest g ↦ .intro fun d hd ↦ ?_, fun hd ↦ hd.1⟩
    · exact (readSegment_keeps id).exits (fun _ d hd ↦ hP _ d hd.1) fun d hd ↦ hP _ d hd.1
    · have hmoved := (hS _).quarantined (herase _) hd.1 id f.bytes
      exact ⟨hP _ _ hmoved, hmoved, fun j hj ↦ hd.2 j (List.mem_cons_of_mem id hj)⟩
    · exact ⟨hd.1, (hS _).quarantined (herase _) hd.1 _ _⟩
    · obtain ⟨schemas, touched, heq⟩ := decodeSegment_eq crc m id hheader
      have hbs := hpieces _ d hd.1 id (hd.2 id List.mem_cons_self) f hf
      have hrest : ∀ j ∈ rest, j ∈ ids := fun j hj ↦ hd.2 j (List.mem_cons_of_mem id hj)
      rw [heq]
      refine .bind ((happendAll _ hbs g.rejects id).pre ?_) fun s ↦ .ret fun d' hd' ↦
        ⟨rfl, hd', hrest⟩
      rintro _ rfl
      exact hd.1
    · refine (Gathered.relieve_keeps (hS g.rejects).ignoresRuns g budget rest).conseq ?_ ?_
        (fun _ d' ↦ hP _ d') fun d' ↦ hP _ d'
      · rintro _ rfl
        exact hd.1
      · rintro g' d' ⟨hd', -, hrejects, -⟩
        exact ⟨hrejects ▸ hd', hd.2⟩
  exact (hphase.triple ids g).pre fun d hd ↦ ⟨hd, fun _ ↦ id⟩

theorem run_keeps {crc : Bytes → UInt32} {config : Config} {m : Manifest} {segments : List ℕ}
    (hP : OfLog P) (herase : AllowsRemoval P)
    (hdecode : ∀ id rest, canon (fun n : ℕ ↦ n) (fun n ↦ n) segments = id :: rest → ∀ budget,
      Keeps o P (Gathered.decodeSegments crc m budget
        { rejects := ⟨config.limits.rejectMaxBytes.toNat, none⟩ } (id :: rest))) (now : ℕ) :
    Keeps o P (run crc config m now segments) := by
  have hclear : Keeps o P clearRuns := clearRuns_triple hP.ignoresRuns
  rw [run]
  split_ifs with hnil
  · exact .ret _
  obtain ⟨id, rest, hids⟩ := List.exists_cons_of_ne_nil hnil
  have hprepare : Keeps o P (prepare crc config m (id :: rest)) := by
    refine (hdecode id rest hids _).bind fun g ↦ ?_
    split
    · split_ifs
      · exact .ret _
      · exact Keeps.bind ((stage_consumed hP config g _ _).post fun _ _ ↦ And.left) fun _ ↦ .ret _
    · exact .ret _
  rw [hids]
  refine hclear.bind fun _ ↦ hprepare.attempt.bind fun r ↦ ?_
  rcases r with e | outcome | plan
  · exact hclear.bind fun _ ↦ .ret _
  · exact hclear.bind fun _ ↦ .ret _
  · exact (publish_keeps hP herase _ plan).attempt.bind fun _ ↦ hclear.bind fun _ ↦ .ret _

end Frame

/-! ## A flush only appends -/

/-- The bytes recorded for a segment. -/
def Disk.rejectsOf (d : Disk) (segment : ℕ) : Bytes := d.rejects.getD segment []

/-- Bytes have been added to `rejects/`, and segments may have gone. -/
structure Disk.Grows (d d' : Disk) : Prop where
  rejects : ∀ segment, d.rejectsOf segment <+: d'.rejectsOf segment
  wal : ∀ (id : ℕ) f, d'.wal[id]? = some f → d.wal[id]? = some f

section Grows

variable {o : Oracle Op} {d₀ : Disk}

theorem Disk.Grows.refl (d : Disk) : d.Grows d := ⟨fun _ ↦ List.prefix_rfl, fun _ _ ↦ id⟩

theorem Disk.Grows.append {d : Disk} (h : d₀.Grows d) (segment : ℕ) (b : Bytes) :
    d₀.Grows { d with rejects := d.rejects.insert segment (d.rejects.getD segment [] ++ b) } := by
  refine ⟨fun s ↦ (h.rejects s).trans ?_, h.wal⟩
  rw [Disk.rejectsOf, Disk.rejectsOf, Std.ExtTreeMap.getD_insert]
  split_ifs with heq
  · obtain rfl := Std.LawfulEqCmp.eq_of_compare heq
    exact List.prefix_append _ _
  · exact List.prefix_rfl

theorem ofLog_grows : OfLog d₀.Grows := fun d d' hwal hrejects h ↦ by
  refine ⟨fun s ↦ ?_, hwal ▸ h.wal⟩
  rw [Disk.rejectsOf, Disk.rejectsOf, hrejects]
  exact h.rejects s

theorem getElem?_of_erase {β : Type} {m : Std.ExtTreeMap ℕ β} {j k : ℕ} {b : β}
    (h : (m.erase k)[j]? = some b) : m[j]? = some b := by
  rw [Std.ExtTreeMap.getElem?_erase] at h
  split_ifs at h
  exact h

theorem allowsRemoval_grows : AllowsRemoval d₀.Grows := fun _ _ h ↦
  ⟨h.rejects, fun j f hf ↦ h.wal j f (getElem?_of_erase hf)⟩

theorem append_grows (s : RejectSink) (segment : ℕ) (b : Bytes) :
    Keeps o d₀.Grows (s.append segment b) := by
  have hopen : ∀ d, d₀.Grows d →
      d₀.Grows { d with rejects := d.rejects.insert segment (d.rejects.getD segment []) } := by
    intro d hd
    have happend := hd.append segment []
    rwa [List.append_nil] at happend
  have hwrite : Keeps o d₀.Grows (RejectSink.write segment b) := by
    refine (Io.touch_keeps _).bind fun _ ↦ (Io.step_keeps hopen).bind fun _ ↦
      (Keeps.write fun n d hd ↦ hd.append segment (b.take n)).bind fun r ↦ ?_
    obtain ⟨n, whole⟩ := r
    cases whole with
    | true => exact .ret ()
    | false => exact .fail _
  have hmeasured : Keeps o d₀.Grows s.measured := by
    unfold RejectSink.measured
    cases s.used with
    | some used => exact .ret used
    | none =>
      refine Io.read_keeps.attempt.bind fun r ↦ ?_
      cases r <;> exact .ret _
  refine hmeasured.bind fun used ↦ ?_
  split_ifs
  · exact .ret _
  · refine hwrite.attempt.bind fun r ↦ ?_
    cases r <;> exact .ret _

/-- **A flush only appends to `rejects/`**, and no segment of the log changes, whatever fails and
wherever it stops. -/
theorem run_grows {crc : Bytes → UInt32} (config : Config) (m : Manifest) (now : ℕ)
    (segments : List ℕ) : Keeps o d₀.Grows (run crc config m now segments) := by
  refine run_keeps ofLog_grows allowsRemoval_grows (fun id rest _ budget ↦ ?_) now
  exact decodeSegments_keeps (S := fun _ ↦ d₀.Grows) (F := fun _ ↦ True) (fun _ ↦ ofLog_grows)
    (fun _ ↦ allowsRemoval_grows) (fun _ _ hd ↦ hd) (fun _ _ _ _ _ _ _ _ _ ↦ trivial)
    (fun s segment b _ ↦ append_grows s segment b) budget _

end Grows

/-! ## What a flush records -/

/-- What is recorded of pieces, each with its segment: those that still fit when it is their turn.
-/
def kept (cap : ℕ) : ℕ → List (ℕ × Bytes) → List (ℕ × Bytes)
  | _, [] => []
  | used, p :: ps =>
    if cap < min (used + p.2.length) u64Max then kept cap used ps
    else p :: kept cap (used + p.2.length) ps

/-- The bytes of the pieces of one segment. -/
def bytesOf (segment : ℕ) (ps : List (ℕ × Bytes)) : Bytes :=
  ps.flatMap fun p ↦ if p.1 = segment then p.2 else []

/-- The pieces of segments that are not pushed, in order. -/
def refusedIn (crc : Bytes → UInt32) (m : Manifest) (wal : Std.ExtTreeMap ℕ SegFile)
    (ids : List ℕ) : List (ℕ × Bytes) :=
  ids.flatMap fun id ↦
    (refused (segmentBytesIn wal id) (pieces crc m (segmentBytesIn wal id))).map (id, ·)

/-- The bytes that pieces have together. -/
def pieceBytes (ps : List (ℕ × Bytes)) : ℕ := (ps.map fun p ↦ p.2.length).sum

private theorem pieceBytes_append (ps qs : List (ℕ × Bytes)) :
    pieceBytes (ps ++ qs) = pieceBytes ps + pieceBytes qs := by
  rw [pieceBytes, List.map_append, List.sum_append]
  rfl

private theorem bytesOf_append (segment : ℕ) (ps qs : List (ℕ × Bytes)) :
    bytesOf segment (ps ++ qs) = bytesOf segment ps ++ bytesOf segment qs := List.flatMap_append

theorem kept_append (cap used : ℕ) (ps qs : List (ℕ × Bytes)) :
    kept cap used (ps ++ qs) =
      kept cap used ps ++ kept cap (used + pieceBytes (kept cap used ps)) qs := by
  induction ps generalizing used with
  | nil => rfl
  | cons p ps ih =>
    rw [List.cons_append, kept, kept]
    split_ifs
    · exact ih used
    · rw [ih, List.cons_append, Nat.add_assoc]
      rfl

/-- The sink has been given pieces, on top of what `rejects/` held. -/
structure Sunk (cap : ℕ) (r : Std.ExtTreeMap ℕ Bytes) (ps : List (ℕ × Bytes)) (s : RejectSink)
    (d : Disk) : Prop where
  cap_eq : s.cap = cap
  knows : s.Knows d.rejects
  bytes : ∀ segment, d.rejectsOf segment =
    r.getD segment [] ++ bytesOf segment (kept cap (rejectedBytes r) ps)
  size : rejectedBytes d.rejects = rejectedBytes r + pieceBytes (kept cap (rejectedBytes r) ps)

section Sink

variable {o : Oracle Op} {P : Disk → Prop} {r : Std.ExtTreeMap ℕ Bytes} {cap : ℕ}
  {ps : List (ℕ × Bytes)} {s : RejectSink}

theorem Sunk.capped {d : Disk} {p : ℕ × Bytes} (h : Sunk cap r ps s d)
    (hover : cap < min (rejectedBytes d.rejects + p.2.length) u64Max) :
    Sunk cap r (ps ++ [p]) ⟨s.cap, some (rejectedBytes d.rejects)⟩ d := by
  have hkept : kept cap (rejectedBytes r) (ps ++ [p]) = kept cap (rejectedBytes r) ps := by
    rw [kept_append, ← h.size, kept, if_pos hover, kept, List.append_nil]
  refine ⟨h.cap_eq, .inr rfl, ?_, ?_⟩
  · rw [hkept]
    exact h.bytes
  · rw [hkept]
    exact h.size

theorem Sunk.fits {d : Disk} {p : ℕ × Bytes} (h : Sunk cap r ps s d)
    (hfits : ¬ cap < min (rejectedBytes d.rejects + p.2.length) u64Max) :
    Sunk cap r (ps ++ [p]) ⟨s.cap, some (rejectedBytes d.rejects + p.2.length)⟩
      { d with rejects := d.rejects.insert p.1 (d.rejectsOf p.1 ++ p.2) } := by
  have hkept : kept cap (rejectedBytes r) (ps ++ [p]) = kept cap (rejectedBytes r) ps ++ [p] := by
    rw [kept_append, ← h.size, kept, if_neg hfits, kept]
  have hsize : rejectedBytes (d.rejects.insert p.1 (d.rejectsOf p.1 ++ p.2)) =
      rejectedBytes d.rejects + p.2.length := rejectedBytes_insert _ _ _
  refine ⟨h.cap_eq, .inr (congrArg some hsize.symm), fun segment ↦ ?_, ?_⟩
  · rw [hkept, bytesOf_append, ← List.append_assoc, ← h.bytes, Disk.rejectsOf,
      Std.ExtTreeMap.getD_insert, bytesOf, List.flatMap_singleton]
    by_cases heq : p.1 = segment
    · rw [if_pos heq, heq, if_pos Std.ReflCmp.compare_self]
    · rw [if_neg heq, if_neg (mt Std.LawfulEqCmp.eq_of_compare heq), List.append_nil]
      rfl
  · rw [hkept, pieceBytes_append, ← Nat.add_assoc, ← h.size]
    exact hsize

theorem Sunk.append (ho : RejectsWork o) (hP : IgnoresRejects P) (p : ℕ × Bytes) :
    Triple o (fun d ↦ P d ∧ Sunk cap r ps s d) (s.append p.1 p.2)
      (fun s' d ↦ P d ∧ Sunk cap r (ps ++ [p]) s' d) (fun _ _ ↦ False) (fun _ ↦ True) := by
  refine .intro fun d hd ↦ (RejectSink.append_works ho hd.2.knows p.1 p.2).post ?_
  rintro s' d' (⟨hover, rfl, rfl⟩ | ⟨hfits, rfl, rfl⟩)
  · exact ⟨hd.1, hd.2.capped (hd.2.cap_eq ▸ hover)⟩
  · exact ⟨hP _ _ hd.1, hd.2.fits (hd.2.cap_eq ▸ hfits)⟩

theorem appendAll_works (ho : RejectsWork o) (hP : IgnoresRejects P) (segment : ℕ)
    (bs : List Bytes) :
    Triple o (fun d ↦ P d ∧ Sunk cap r ps s d) (s.appendAll segment bs)
      (fun s' d ↦ P d ∧ Sunk cap r (ps ++ bs.map (segment, ·)) s' d) (fun _ _ ↦ False)
      (fun _ ↦ True) := by
  induction bs generalizing s ps with
  | nil =>
    refine .ret fun d hd ↦ ?_
    rw [List.map_nil, List.append_nil]
    exact hd
  | cons b bs ih =>
    refine .bind (Sunk.append ho hP (segment, b)) fun s' ↦ (ih (s := s')).post fun s'' d hd ↦ ?_
    rw [List.append_assoc] at hd
    exact hd

end Sink

/-- The segments `ids` are those there were, unchanged, as far as they are still there. -/
def WalOf (ids : List ℕ) (wal : Std.ExtTreeMap ℕ SegFile) (d : Disk) : Prop :=
  ∀ id ∈ ids, ∀ f, d.wal[id]? = some f → wal[id]? = some f

section Run

variable {o : Oracle Op} {crc : Bytes → UInt32} {m : Manifest} {wal : Std.ExtTreeMap ℕ SegFile}
  {r : Std.ExtTreeMap ℕ Bytes} {cap : ℕ} {ids : List ℕ}

theorem ofLog_walOf : OfLog (WalOf ids wal) := fun _ _ hwal _ h id hid f hf ↦
  h id hid f (hwal ▸ hf)

theorem allowsRemoval_walOf : AllowsRemoval (WalOf ids wal) := fun _ _ h j hj f hf ↦
  h j hj f (getElem?_of_erase hf)

/-- The first phase has consumed segments, and their refused pieces have been given to the sink. -/
structure Consumed (crc : Bytes → UInt32) (m : Manifest) (wal : Std.ExtTreeMap ℕ SegFile)
    (r : Std.ExtTreeMap ℕ Bytes) (cap : ℕ) (ids : List ℕ) (g : Gathered) (d : Disk) : Prop where
  log : WalOf ids wal d
  sunk : Sunk cap r (refusedIn crc m wal g.consumed) g.rejects d
  mem : ∀ id ∈ g.consumed, id ∈ ids ∧ id ∈ wal

theorem ofLog_consumed (g : Gathered) : OfLog (Consumed crc m wal r cap ids g) := by
  intro d d' hwal hrejects h
  refine ⟨ofLog_walOf d d' hwal hrejects h.log, ⟨h.sunk.cap_eq, ?_, ?_, ?_⟩, h.mem⟩
  · rw [hrejects]
    exact h.sunk.knows
  · simp only [Disk.rejectsOf, hrejects]
    exact h.sunk.bytes
  · rw [hrejects]
    exact h.sunk.size

private theorem allowsRemoval_consumed (g : Gathered) :
    AllowsRemoval (Consumed crc m wal r cap ids g) :=
  fun d id h ↦ ⟨allowsRemoval_walOf d id h.log,
    ⟨h.sunk.cap_eq, h.sunk.knows, h.sunk.bytes, h.sunk.size⟩, h.mem⟩

theorem Consumed.take {id n : ℕ} {g : Gathered} {d : Disk} {f : SegFile} (ho : RejectsWork o)
    (h : Consumed crc m wal r cap ids g d) (hid : id ∈ ids) (hf : d.wal[id]? = some f)
    (hheader : parseSegmentHeader f.bytes = .ok n) :
    Triple o (· = d) (decodeSegment crc id f.bytes m g.rejects g.batch)
      (fun q d' ↦ q.out.unreadable = false ∧
        Consumed crc m wal r cap ids ((g.tally q).consume id q.out) d')
      (fun _ _ ↦ True) (fun _ ↦ True) := by
  have hin : wal[id]? = some f := h.log id hid f hf
  have hbytes : segmentBytesIn wal id = f.bytes := by
    rw [segmentBytesIn, hin]
    rfl
  obtain ⟨schemas, touched, heq⟩ := decodeSegment_eq crc m id hheader
  have hignores : IgnoresRejects (WalOf ids wal) := fun _ _ h ↦ h
  rw [heq]
  have hsink : Triple o (· = d) (g.rejects.appendAll id (refused f.bytes (pieces crc m f.bytes)))
      (fun s d' ↦ WalOf ids wal d' ∧ Sunk cap r (refusedIn crc m wal g.consumed ++
        (refused f.bytes (pieces crc m f.bytes)).map (id, ·)) s d')
      (fun _ _ ↦ True) (fun _ ↦ True) := by
    refine (appendAll_works ho hignores id _).conseq ?_ (fun _ _ hd' ↦ hd') (fun _ _ ↦ False.elim)
      fun _ _ ↦ trivial
    rintro _ rfl
    exact ⟨h.log, h.sunk⟩
  refine .bind hsink fun s ↦ .ret fun d' hd' ↦ ⟨rfl, hd'.1, ?_, ?_⟩
  · change Sunk cap r (refusedIn crc m wal (g.consumed ++ [id])) s d'
    rw [refusedIn, List.flatMap_append, List.flatMap_singleton, hbytes]
    exact hd'.2
  · change ∀ j ∈ g.consumed ++ [id], j ∈ ids ∧ j ∈ wal
    rw [List.forall_mem_append, List.forall_mem_singleton]
    exact ⟨h.mem, hid, mem_of_getElem? hin⟩

/-- **The first phase** gives the sink the refused pieces of the segments it consumes. -/
theorem decodeSegments_works (ho : RejectsWork o) (budget : ℕ) (g : Gathered) :
    Triple o (Consumed crc m wal r cap ids g) (g.decodeSegments crc m budget ids)
      (Consumed crc m wal r cap ids) (fun _ _ ↦ True) (fun _ ↦ True) := by
  let I : List ℕ → Gathered → Disk → Prop := fun rest g d ↦
    Consumed crc m wal r cap ids g d ∧ ∀ id ∈ rest, id ∈ ids
  have hphase : Gathered.Phase o crc m budget I I (Consumed crc m wal r cap ids) (fun _ _ ↦ True)
      (fun _ ↦ True) := by
    refine ⟨fun id rest g ↦ ?_, fun _ ↦ trivial, fun {id rest g d f e} hd hf _ ↦ ?_,
      fun {id rest g d f e} hd hf _ _ ↦ ?_, fun hd hf hheader ↦ ?_,
      fun rest g ↦ .intro fun d hd ↦ ?_, fun hd ↦ hd.1⟩
    · exact (readSegment_keeps id).exits (fun _ _ _ ↦ trivial) fun _ _ ↦ trivial
    · have hmoved := (ofLog_consumed g).quarantined (allowsRemoval_consumed g) hd.1 id f.bytes
      exact ⟨trivial, ⟨hmoved.log, hmoved.sunk, hmoved.mem⟩,
        fun j hj ↦ hd.2 j (List.mem_cons_of_mem id hj)⟩
    · have hmoved := (ofLog_consumed g).quarantined (allowsRemoval_consumed g) hd.1 id f.bytes
      exact ⟨⟨hd.1.log, hd.1.sunk, hd.1.mem⟩, ⟨hmoved.log, hmoved.sunk, hmoved.mem⟩⟩
    · refine (hd.1.take ho (hd.2 _ List.mem_cons_self) hf hheader).post fun q d' hd' ↦ ?_
      exact ⟨hd'.1, hd'.2, fun j hj ↦ hd.2 j (List.mem_cons_of_mem _ hj)⟩
    · refine (Gathered.relieve_keeps (P := Consumed crc m wal r cap ids g)
        (ofLog_consumed g).ignoresRuns g budget rest).conseq ?_ ?_ (fun _ _ _ ↦ trivial)
        fun _ _ ↦ trivial
      · rintro _ rfl
        exact hd.1
      · rintro g' d' ⟨hd', hconsumed, hrejects, -⟩
        refine ⟨⟨hd'.log, ?_, ?_⟩, hd.2⟩
        · rw [hconsumed, hrejects]
          exact hd'.sunk
        · rw [hconsumed]
          exact hd'.mem
  exact (hphase.triple ids g).pre fun d hd ↦ ⟨hd, fun _ ↦ id⟩

/-- The refused pieces of segments have been recorded. -/
def Records (crc : Bytes → UInt32) (m : Manifest) (wal : Std.ExtTreeMap ℕ SegFile)
    (r : Std.ExtTreeMap ℕ Bytes) (cap : ℕ) (ids : List ℕ) (d : Disk) : Prop :=
  ∀ segment, d.rejectsOf segment = r.getD segment [] ++
    bytesOf segment (kept cap (rejectedBytes r) (refusedIn crc m wal ids))

private theorem ofLog_records (ids : List ℕ) : OfLog (Records crc m wal r cap ids) := by
  intro d d' _ hrejects h segment
  rw [Disk.rejectsOf, hrejects]
  exact h segment

theorem prepare_works (ho : RejectsWork o) (config : Config) :
    Triple o (fun d ↦ WalOf ids wal d ∧ d.rejects = r) (prepare crc config m ids)
      (fun q d ↦ match q with
        | .inl outcome => outcome.segmentsConsumed = []
        | .inr plan => Records crc m wal r config.limits.rejectMaxBytes.toNat
              plan.outcome.segmentsConsumed d ∧
            ∀ id ∈ plan.outcome.segmentsConsumed, id ∈ ids ∧ id ∈ wal)
      (fun _ _ ↦ True) (fun _ ↦ True) := by
  have hstart : ∀ d, WalOf ids wal d ∧ d.rejects = r → Consumed crc m wal r
      config.limits.rejectMaxBytes.toNat ids
      { rejects := ⟨config.limits.rejectMaxBytes.toNat, none⟩ } d := by
    rintro d ⟨hwal, rfl⟩
    exact ⟨hwal, ⟨rfl, .inl rfl, fun _ ↦ (List.append_nil _).symm, rfl⟩, nofun⟩
  refine .bind ((decodeSegments_works ho _ _).pre hstart) fun g ↦ ?_
  split
  · split_ifs
    · exact .ret fun _ _ ↦ rfl
    · refine .bind ((stage_consumed (ofLog_consumed g) config g _ _).exits (fun _ _ _ ↦ trivial)
        fun _ _ ↦ trivial) fun plan ↦ .ret ?_
      rintro d ⟨hd, hconsumed⟩
      dsimp only
      rw [hconsumed]
      exact ⟨hd.sunk.bytes, hd.mem⟩
  · exact .ret fun _ _ ↦ rfl

/-- **A flush that commits** records the refused pieces of the segments it consumes, in order, as
long as they fit. -/
theorem run_rejects (ho : RejectsWork o) {config : Config} {now : ℕ} {segments : List ℕ}
    {w w' : World Disk} {m' : Manifest} {outcome : FlushOutcome}
    (hrun : run crc config m now segments o w = (.ok (m', .ok outcome), w'))
    (hconsumed : outcome.segmentsConsumed ≠ []) :
    Records crc m w.disk.wal w.disk.rejects config.limits.rejectMaxBytes.toNat
        outcome.segmentsConsumed w'.disk ∧
      ∀ id ∈ outcome.segmentsConsumed, id ∈ segments ∧ id ∈ w.disk.wal := by
  have htriple : Triple o (fun d ↦ WalOf segments w.disk.wal d ∧ d.rejects = w.disk.rejects)
      (run crc config m now segments)
      (fun q d ↦ ∀ outcome, q.2 = .ok outcome → outcome.segmentsConsumed ≠ [] →
        Records crc m w.disk.wal w.disk.rejects config.limits.rejectMaxBytes.toNat
          outcome.segmentsConsumed d ∧
        ∀ id ∈ outcome.segmentsConsumed, id ∈ segments ∧ id ∈ w.disk.wal)
      (fun _ _ ↦ True) (fun _ ↦ True) := by
    have hclear : ∀ P : Disk → Prop, OfLog P →
        Triple o P clearRuns (fun _ ↦ P) (fun _ _ ↦ True) (fun _ ↦ True) := fun P hP ↦
      (clearRuns_triple hP.ignoresRuns).exits (fun _ _ ↦ id) fun _ _ ↦ trivial
    have hfixed : ∀ p : Prop, OfLog fun _ ↦ p := fun _ _ _ _ _ ↦ id
    rw [run]
    split_ifs
    · refine .ret fun d _ outcome heq hne ↦ absurd ?_ hne
      cases heq
      rfl
    have hids : ∀ d, WalOf segments w.disk.wal d ∧ d.rejects = w.disk.rejects →
        WalOf (canon (fun n : ℕ ↦ n) (fun n ↦ n) segments) w.disk.wal d ∧
          d.rejects = w.disk.rejects := fun d hd ↦
            ⟨fun id hid ↦ hd.1 id (mem_of_mem_canon _ _ hid), hd.2⟩
    refine .bind (hclear _ fun d d' hwal hrejects hd ↦
      ⟨ofLog_walOf d d' hwal hrejects hd.1, hrejects.trans hd.2⟩) fun _ ↦
      .attempt_bind ((prepare_works ho config).pre hids) (fun q ↦ ?_) fun e ↦ ?_
    · rcases q with outcome | plan
      · refine .bind (hclear _ (hfixed _)) fun _ ↦ .ret fun _ hd outcome heq hne ↦ absurd ?_ hne
        cases heq
        exact hd
      · refine .intro fun d hd ↦ ?_
        have hpublish : Triple o (· = d) (Prog.attempt (publish (m.advance plan.last now) plan))
            (fun _ ↦ Records crc m w.disk.wal w.disk.rejects config.limits.rejectMaxBytes.toNat
              plan.outcome.segmentsConsumed) (fun _ _ ↦ True) (fun _ ↦ True) :=
          ((publish_keeps (ofLog_records _) (fun _ _ h ↦ h) _ plan).attempt_triple.pre
            fun _ heq ↦ heq ▸ hd.1).exits (fun _ _ ↦ id) fun _ _ ↦ trivial
        refine .bind hpublish fun q ↦ .bind (hclear _ (ofLog_records _)) fun _ ↦
            .ret fun _ hrecords outcome heq _ ↦ ?_
        cases q with
        | error e => cases heq
        | ok _ =>
          cases heq
          exact ⟨hrecords, fun id hid ↦ ⟨mem_of_mem_canon _ _ (hd.2 id hid).1, (hd.2 id hid).2⟩⟩
    · refine .bind (hclear _ (hfixed _)) fun _ ↦ .ret fun _ _ outcome heq ↦ ?_
      cases heq
  exact htriple.of_ok ⟨fun _ _ _ ↦ id, rfl⟩ hrun outcome rfl hconsumed

end Run

/-! ## Sizes -/

private theorem rejectedBytes_eq_sum (r : Std.ExtTreeMap ℕ Bytes) {S : Finset ℕ}
    (h : ∀ k ∈ r, k ∈ S) : rejectedBytes r = ∑ k ∈ S, (r.getD k []).length := by
  have hkeys : (r.toList.map fun f ↦ f.2.length) = r.keys.map fun k ↦ (r.getD k []).length := by
    rw [← Std.ExtTreeMap.map_fst_toList_eq_keys, List.map_map]
    refine List.map_congr_left fun f hf ↦ ?_
    have hf := Std.ExtTreeMap.mem_toList_iff_getElem?_eq_some.1 hf
    rw [Function.comp_apply, Std.ExtTreeMap.getD_eq_getD_getElem?, hf, Option.getD_some]
  have hsub : r.keys.toFinset ⊆ S := fun k hk ↦
    h k (Std.ExtTreeMap.mem_keys.1 (List.mem_toFinset.1 hk))
  rw [rejectedBytes, hkeys, ← Finset.sum_subset hsub, ← List.sum_toFinset]
  · exact r.nodup_keys
  · intro k _ hk
    rw [List.mem_toFinset, Std.ExtTreeMap.mem_keys] at hk
    rw [Std.ExtTreeMap.getD_eq_fallback hk]
    rfl

private theorem rejectedBytes_mono {r r' : Std.ExtTreeMap ℕ Bytes}
    (h : ∀ k, r.getD k [] <+: r'.getD k []) : rejectedBytes r ≤ rejectedBytes r' := by
  rw [rejectedBytes_eq_sum r (S := r.keys.toFinset ∪ r'.keys.toFinset) (by simp +contextual),
    rejectedBytes_eq_sum r' (S := r.keys.toFinset ∪ r'.keys.toFinset) (by simp +contextual)]
  exact Finset.sum_le_sum fun k _ ↦ (h k).length_le

/-! ## Attempts -/

/-- What a flush is given besides the segments and the directory. -/
structure Attempt where
  config : Config
  manifest : Manifest
  now : ℕ
  oracle : Oracle Op
  clock : ℕ

namespace Attempt

/-- The flush of `segments`. -/
def flush (crc : Bytes → UInt32) (segments : List ℕ) (a : Attempt) (d : Disk) :
    Outcome Error (Manifest × Except Error FlushOutcome) × World Disk :=
  run crc a.config a.manifest a.now segments a.oracle ⟨d, a.clock⟩

/-- What it leaves. -/
def left (crc : Bytes → UInt32) (segments : List ℕ) (a : Attempt) (d : Disk) : Disk :=
  (a.flush crc segments d).2.disk

/-- The flush is given up before the commit: it ends with an error or is stopped, and the manifest
is the one there was. -/
def GivenUp (crc : Bytes → UInt32) (segments : List ℕ) (a : Attempt) (d : Disk) : Prop :=
  outcome? (a.flush crc segments d) = none ∧ (a.left crc segments d).manifest = d.manifest

end Attempt

/-- Attempts to flush `segments`, one after the other, all given up. In between anything may happen,
a restart or appends, that neither touches `rejects/` nor rewrites one of the segments. -/
inductive Attempts (crc : Bytes → UInt32) (segments : List ℕ) (d₀ : Disk) :
    List Attempt → Disk → Prop where
  | start : Attempts crc segments d₀ [] d₀
  | attempt {as : List Attempt} {a : Attempt} {d : Disk} : Attempts crc segments d₀ as d →
      a.GivenUp crc segments d → Attempts crc segments d₀ (as ++ [a]) (a.left crc segments d)
  | between {as : List Attempt} {d d' : Disk} : Attempts crc segments d₀ as d →
      d'.rejects = d.rejects → WalOf segments d.wal d' → Attempts crc segments d₀ as d'

/-- The calls of an attempt on `rejects/` come to nothing: the directory is not made, no file is
opened, or no byte is written. -/
def RejectsFail (o : Oracle Op) : Prop :=
  ¬ Done o .rejectsMkdir ∨ ¬ Done o .rejectsOpen ∨
    ∀ t, o t .rejectsWrite = .fails 0 ∨ o t .rejectsWrite = .crashes 0

/-- Nothing an attempt could record of the segments fits under its cap, and it measures `rejects/`
before it records anything. This holds in particular if it has nothing to record. -/
structure Attempt.Overfull (crc : Bytes → UInt32) (segments : List ℕ) (d₀ : Disk) (a : Attempt) :
    Prop where
  measures : ¬ Failed a.oracle .rejectsMeasure
  exceeds : ∀ p ∈ refusedIn crc a.manifest d₀.wal segments,
    a.config.limits.rejectMaxBytes.toNat < min (rejectedBytes d₀.rejects + p.2.length) u64Max

/-- What an attempt is given keeps it from recording a reject. -/
def Attempt.Silent (crc : Bytes → UInt32) (segments : List ℕ) (d₀ : Disk) (a : Attempt) : Prop :=
  ¬ Done a.oracle .segmentRead ∨ RejectsFail a.oracle ∨ a.Overfull crc segments d₀

section Silent

variable {crc : Bytes → UInt32} {segments : List ℕ} {d₀ d : Disk} {o : Oracle Op}

/-- The files of `rejects/` hold what they held; one of them may have been opened. -/
private def SameRejects (d d' : Disk) : Prop := ∀ j, d'.rejectsOf j = d.rejectsOf j

private theorem ofLog_sameRejects : OfLog (SameRejects d) := by
  intro d₁ d₂ _ hrejects h j
  rw [Disk.rejectsOf, hrejects]
  exact h j

private theorem SameRejects.insert {d' : Disk} (h : SameRejects d d') (segment : ℕ) :
    SameRejects d
      { d' with rejects := d'.rejects.insert segment (d'.rejects.getD segment []) } := by
  intro j
  rw [← h j, Disk.rejectsOf, Disk.rejectsOf, Std.ExtTreeMap.getD_insert]
  split_ifs with heq
  · rw [Std.LawfulEqCmp.eq_of_compare heq]
  · rfl

private theorem RejectsFail.write (ho : RejectsFail o) (segment : ℕ) (b : Bytes) :
    Keeps o (SameRejects d) (RejectSink.write segment b) := by
  rcases ho with hmkdir | hopen | hzero
  · exact Triple.bind (Q := fun _ _ ↦ False) (Io.step_triple
      (fun _ t _ hdone ↦ hmkdir ⟨t, hdone⟩) (fun _ _ _ hd _ ↦ hd) fun _ _ _ hd _ ↦ hd)
      fun _ _ ↦ False.elim
  · exact (Io.touch_keeps _).bind fun _ ↦ Triple.bind (Q := fun _ _ ↦ False) (Io.step_triple
      (fun _ t _ hdone ↦ hopen ⟨t, hdone⟩) (fun _ _ _ hd _ ↦ hd) fun _ _ _ hd _ ↦ hd)
      fun _ _ ↦ False.elim
  · have hnone : ∀ d', SameRejects d d' → SameRejects d { d' with
        rejects := d'.rejects.insert segment (d'.rejects.getD segment [] ++ b.take 0) } := by
      intro d' hd
      rw [List.take_zero, List.append_nil]
      exact hd.insert segment
    refine (Io.touch_keeps _).bind fun _ ↦ (Io.step_keeps fun d' hd ↦ hd.insert segment).bind
      fun _ ↦ Keeps.bind (Triple.write (fun d' t _ hdone ↦ ?_) (fun d' t n hd hfails ↦ ?_)
        fun d' t n hd hcrashes ↦ ?_) fun r ↦ ?_
    · rcases hzero t with h | h <;> cases hdone.symm.trans h
    · rcases hzero t with h | h <;> cases hfails.symm.trans h
      rw [Nat.zero_min]
      exact hnone d' hd
    · rcases hzero t with h | h <;> cases hcrashes.symm.trans h
      rw [Nat.zero_min]
      exact hnone d' hd
    · obtain ⟨n, whole⟩ := r
      cases whole with
      | true => exact .ret ()
      | false => exact .fail _

private theorem measured_sameRejects (s : RejectSink) : Keeps o (SameRejects d) s.measured := by
  unfold RejectSink.measured
  cases s.used with
  | some used => exact .ret used
  | none =>
    refine Io.read_keeps.attempt.bind fun r ↦ ?_
    cases r <;> exact .ret _

theorem RejectsFail.append (ho : RejectsFail o) (s : RejectSink) (segment : ℕ) (b : Bytes) :
    Keeps o (SameRejects d) (s.append segment b) := by
  refine (measured_sameRejects s).bind fun used ↦ ?_
  split_ifs
  · exact .ret _
  · refine (ho.write segment b).attempt.bind fun r ↦ ?_
    cases r <;> exact .ret _

theorem Attempt.left_of_keeps {a : Attempt} {P : Disk → Prop}
    (h : Keeps a.oracle P (run crc a.config a.manifest a.now segments)) (hd : P d) :
    P (a.left crc segments d) := by
  have hmeets := h ⟨d, a.clock⟩ hd
  rw [Attempt.left, Attempt.flush]
  generalize run crc a.config a.manifest a.now segments a.oracle ⟨d, a.clock⟩ = r at hmeets ⊢
  obtain ⟨_ | _ | _, w⟩ := r
  · exact hmeets
  · exact hmeets
  · exact hmeets.2

theorem Attempt.grows (a : Attempt) : d.Grows (a.left crc segments d) :=
  a.left_of_keeps (run_grows a.config a.manifest a.now segments) (Disk.Grows.refl d)

private theorem left_of_unread {a : Attempt} (h : ¬ Done a.oracle .segmentRead) :
    SameRejects d (a.left crc segments d) := by
  refine a.left_of_keeps (run_keeps ofLog_sameRejects (fun _ _ h ↦ h) ?_ _) fun _ ↦ rfl
  intro id rest _ budget
  have hread : Triple a.oracle (SameRejects d) (readSegment id) (fun _ _ ↦ False)
      (fun _ ↦ SameRejects d) (SameRejects d) := by
    rw [readSegment, Io.read]
    exact .op (fun _ t _ _ _ hdone _ ↦ h ⟨t, hdone⟩) (fun _ _ _ hd _ _ ↦ hd)
      (fun _ _ _ hd _ ↦ hd) fun _ _ _ hd _ ↦ hd
  rw [Gathered.decodeSegments]
  exact hread.bind fun _ _ ↦ False.elim

private theorem left_of_rejectsFail {a : Attempt} (h : RejectsFail a.oracle) :
    SameRejects d (a.left crc segments d) := by
  refine a.left_of_keeps (run_keeps ofLog_sameRejects (fun _ _ h ↦ h) ?_ _) fun _ ↦ rfl
  exact fun id rest _ budget ↦ decodeSegments_keeps (S := fun _ ↦ SameRejects d)
    (F := fun _ ↦ True) (fun _ ↦ ofLog_sameRejects) (fun _ _ _ h ↦ h) (fun _ _ hd ↦ hd)
    (fun _ _ _ _ _ _ _ _ _ ↦ trivial) (fun s segment b _ ↦ h.append s segment b) budget _

theorem RejectSink.append_over {s : RejectSink} (hmeasure : ¬ Failed o .rejectsMeasure)
    (hs : s.Knows d.rejects) (segment : ℕ) {b : Bytes}
    (hover : s.cap < min (rejectedBytes d.rejects + b.length) u64Max) :
    Triple o (· = d) (s.append segment b)
      (fun s' d' ↦ d' = d ∧ s'.cap = s.cap ∧ s'.Knows d.rejects) (fun _ _ ↦ False) (· = d) := by
  refine .bind (RejectSink.measured_works hmeasure hs) fun used ↦ .intro fun d' hd' ↦ ?_
  obtain ⟨rfl, rfl⟩ := hd'
  rw [if_pos hover]
  exact .ret fun _ hd ↦ ⟨hd, rfl, .inr rfl⟩

private theorem left_of_overfull {a : Attempt} (h : a.Overfull crc segments d₀)
    (hsize : rejectedBytes d.rejects = rejectedBytes d₀.rejects) (hwal : WalOf segments d₀.wal d) :
    SameRejects d (a.left crc segments d) := by
  set cap := a.config.limits.rejectMaxBytes.toNat
  let P : Disk → Prop := fun d' ↦ WalOf segments d₀.wal d' ∧ d'.rejects = d.rejects
  have hlog : OfLog P := fun d₁ d₂ hw hr hd ↦
    ⟨ofLog_walOf d₁ d₂ hw hr hd.1, hr.trans hd.2⟩
  have hremoval : AllowsRemoval P := fun d₁ id hd ↦ ⟨allowsRemoval_walOf d₁ id hd.1, hd.2⟩
  have hdecode : ∀ id rest, canon (fun n : ℕ ↦ n) (fun n ↦ n) segments = id :: rest → ∀ budget,
      Keeps a.oracle P (Gathered.decodeSegments crc a.manifest budget
        { rejects := ⟨cap, none⟩ } (id :: rest)) := by
    intro id rest hids budget
    refine (decodeSegments_keeps
      (S := fun s d' ↦ P d' ∧ s.cap = cap ∧ s.Knows d.rejects)
      (F := fun b ↦ cap < min (rejectedBytes d.rejects + b.length) u64Max)
      (fun s d₁ d₂ hw hr hd ↦ ⟨hlog d₁ d₂ hw hr hd.1, hd.2⟩)
      (fun s d₁ id hd ↦ ⟨hremoval d₁ id hd.1, hd.2⟩) (fun _ _ hd ↦ hd.1) ?_ ?_ budget _).conseq
      (fun d' hd' ↦ ⟨hd', rfl, .inl rfl⟩) (fun _ _ hd ↦ hd.1) (fun _ _ hd ↦ hd) fun _ hd ↦ hd
    · intro s d' hd' j hj f hf b hb
      have hj : j ∈ segments := mem_of_mem_canon _ _ (hids ▸ hj)
      have hbytes : segmentBytesIn d₀.wal j = f.bytes := by
        rw [segmentBytesIn, hd'.1.1 j hj f hf]
        rfl
      rw [hsize]
      refine h.exceeds (j, b) (List.mem_flatMap.2 ⟨j, hj, List.mem_map.2 ⟨b, ?_, rfl⟩⟩)
      rw [hbytes]
      exact hb
    · intro s segment b hover
      refine .intro ?_
      rintro d' ⟨⟨hd', hrejects⟩, hcap, hknows⟩
      refine (RejectSink.append_over h.measures (hrejects ▸ hknows) segment
        (hrejects ▸ hcap ▸ hover)).conseq (fun _ heq ↦ heq) ?_ (fun _ _ ↦ False.elim) ?_
      · rintro s' _ ⟨rfl, hcap', hknows'⟩
        exact ⟨⟨hd', hrejects⟩, hcap'.trans hcap, hrejects ▸ hknows'⟩
      · rintro _ rfl
        exact ⟨hd', hrejects⟩
  have hleft : P (a.left crc segments d) :=
    a.left_of_keeps (run_keeps hlog hremoval hdecode _) ⟨hwal, rfl⟩
  intro j
  rw [Disk.rejectsOf, hleft.2]
  rfl

theorem rejectedBytes_congr {r r' : Std.ExtTreeMap ℕ Bytes}
    (h : ∀ k, r.getD k [] = r'.getD k []) : rejectedBytes r = rejectedBytes r' :=
  (rejectedBytes_mono fun k ↦ h k ▸ List.prefix_rfl).antisymm
    (rejectedBytes_mono fun k ↦ h k ▸ List.prefix_rfl)

theorem Attempts.unchanged {as : List Attempt} (h : Attempts crc segments d₀ as d)
    (hsilent : ∀ a ∈ as, a.Silent crc segments d₀) :
    (∀ s, d.rejectsOf s = d₀.rejectsOf s) ∧ WalOf segments d₀.wal d := by
  induction h with
  | start => exact ⟨fun _ ↦ rfl, fun _ _ _ hf ↦ hf⟩
  | @attempt as a d _ _ ih =>
    rw [List.forall_mem_append, List.forall_mem_singleton] at hsilent
    obtain ⟨hsame, hwal⟩ := ih hsilent.1
    refine ⟨fun s ↦ ?_, fun id hid f hf ↦ hwal id hid f (a.grows.wal id f hf)⟩
    rw [← hsame s]
    rcases hsilent.2 with hunread | hfail | hover
    · exact left_of_unread hunread s
    · exact left_of_rejectsFail hfail s
    · exact left_of_overfull hover (rejectedBytes_congr hsame) hwal s
  | between _ hrejects hwal' ih =>
    obtain ⟨hsame, hwal⟩ := ih hsilent
    refine ⟨fun s ↦ ?_, fun id hid f hf ↦ hwal id hid f (hwal' id hid f hf)⟩
    rw [← hsame s, Disk.rejectsOf, hrejects]
    rfl

end Silent

private theorem refusedIn_congr {crc : Bytes → UInt32} {m m₁ : Manifest}
    {wal wal₁ : Std.ExtTreeMap ℕ SegFile} {ids : List ℕ} (hseries : m₁.series = m.series)
    (hwal : ∀ id ∈ ids, wal[id]? = wal₁[id]?) :
    refusedIn crc m₁ wal₁ ids = refusedIn crc m wal ids := by
  obtain ⟨series, last, at_⟩ := m
  obtain ⟨series₁, last₁, at₁⟩ := m₁
  obtain rfl : series₁ = series := hseries
  refine List.flatMap_congr fun id hid ↦ ?_
  rw [segmentBytesIn, segmentBytesIn, hwal id hid]
  rfl

/-- **Replaying a flush.** After attempts that are given up before the commit and a flush that
commits, `rejects/` holds what it holds after a single flush that commits the same segments,
provided that each of the attempts is silent. -/
theorem replay_rejects_eq {crc : Bytes → UInt32} {config : Config} {m m₁ : Manifest} {d₀ d : Disk}
    {as : List Attempt} {o o₁ : Oracle Op} {now now₁ clock clock₁ : ℕ} {segments : List ℕ}
    {w w₁ : World Disk} {m' m₁' : Manifest} {outcome outcome₁ : FlushOutcome}
    (hattempts : Attempts crc segments d₀ as d) (hsilent : ∀ a ∈ as, a.Silent crc segments d₀)
    (hrun : run crc config m now segments o ⟨d, clock⟩ = (.ok (m', .ok outcome), w))
    (hsingle : run crc config m₁ now₁ segments o₁ ⟨d₀, clock₁⟩ = (.ok (m₁', .ok outcome₁), w₁))
    (hcommits : outcome.segmentsConsumed ≠ [])
    (hsame : outcome₁.segmentsConsumed = outcome.segmentsConsumed) (hseries : m₁.series = m.series)
    (ho : RejectsWork o) (ho₁ : RejectsWork o₁) :
    ∀ s, w.disk.rejectsOf s = w₁.disk.rejectsOf s := by
  obtain ⟨hrecords, hmem⟩ := run_rejects ho hrun hcommits
  obtain ⟨hrecords₁, -⟩ := run_rejects ho₁ hsingle (hsame ▸ hcommits)
  obtain ⟨hrejects, hlog⟩ := hattempts.unchanged hsilent
  have hwal : ∀ id ∈ outcome.segmentsConsumed, d₀.wal[id]? = d.wal[id]? := by
    intro id hid
    obtain ⟨hin, hthere⟩ := hmem id hid
    obtain ⟨f, hf⟩ := Option.isSome_iff_exists.1 (Std.ExtTreeMap.isSome_getElem?_iff_mem.2 hthere)
    exact (hlog id hin f hf).trans hf.symm
  have hps : refusedIn crc m d.wal outcome.segmentsConsumed =
      refusedIn crc m₁ d₀.wal outcome₁.segmentsConsumed := by
    rw [hsame, refusedIn_congr hseries fun _ _ ↦ rfl, refusedIn_congr rfl hwal]
  have hsize : rejectedBytes d.rejects = rejectedBytes d₀.rejects := rejectedBytes_congr hrejects
  intro s
  rw [hrecords s, hrecords₁ s, hps, hsize]
  exact congrArg (· ++ _) (hrejects s)

private def tailDisk : Disk :=
  { wal := {(1, ⟨encodeSegmentHeader 1 ++ [1, 2, 3], 0⟩),
      (2, ⟨encodeSegmentHeader 2 ++ [4, 5, 6], 0⟩)} }

private def sixBytes : Config := { limits := { rejectMaxBytes := 6 } }

/-- What a flush leaves. -/
private def flushed (o : Oracle Op) (ids : List ℕ) (d : Disk) : Disk :=
  (run crc32 sixBytes {} 0 ids o ⟨d, 0⟩).2.disk

/-- What a flush of both segments reports. -/
private def tailsOutcome : FlushOutcome :=
  { segmentsConsumed := [1, 2], framesRejected := 2, bytesSkipped := 6 }

/-- A segment cannot be read; nothing fits under a cap of two bytes, and the manifest cannot be
written; no reject file can be opened, and the manifest cannot be written. -/
private def silentAttempts : List Attempt :=
  [⟨sixBytes, {}, 0, failing .segmentRead 0, 0⟩,
    ⟨{ limits := { rejectMaxBytes := 2 } }, {}, 0, failing .manifestCreate 0, 0⟩,
    ⟨sixBytes, {}, 0,
      fun _ op ↦ if op = .rejectsOpen ∨ op = .manifestCreate then .fails 0 else .done, 0⟩]

private def afterSilent : Disk :=
  silentAttempts.foldl (fun d a ↦ a.left crc32 [1, 2] d) tailDisk

/-- One attempt of each kind, and then the two tails are recorded once. -/
theorem replay_rejects_eq_tails :
    Attempts crc32 [1, 2] tailDisk silentAttempts afterSilent ∧
      (∀ a ∈ silentAttempts, a.Silent crc32 [1, 2] tailDisk) ∧
      (flushed noFault [1, 2] tailDisk).rejectsOf 1 = [1, 2, 3] ∧
      ∀ s, (flushed noFault [1, 2] afterSilent).rejectsOf s =
        (flushed noFault [1, 2] tailDisk).rejectsOf s := by
  have hattempts : Attempts crc32 [1, 2] tailDisk silentAttempts afterSilent :=
    .attempt (.attempt (.attempt .start ⟨by decide +kernel, by decide +kernel⟩)
      ⟨by decide +kernel, by decide +kernel⟩) ⟨by decide +kernel, by decide +kernel⟩
  have hsilent : ∀ a ∈ silentAttempts, a.Silent crc32 [1, 2] tailDisk := by
    rw [silentAttempts, List.forall_mem_cons, List.forall_mem_cons, List.forall_mem_singleton]
    refine ⟨.inl ?_, .inr (.inr ⟨?_, by decide +kernel⟩), .inr (.inl (.inr (.inl ?_)))⟩
    · rintro ⟨t, ⟨⟩⟩
    · rintro ⟨t, n, ⟨⟩⟩
    · rintro ⟨t, ⟨⟩⟩
  obtain ⟨m', w, hrun⟩ := eq_of_outcome? (show outcome? (run crc32 sixBytes {} 0 [1, 2] noFault
    ⟨afterSilent, 0⟩) = some tailsOutcome by decide +kernel)
  obtain ⟨m₁', w₁, hsingle⟩ := eq_of_outcome? (show outcome? (run crc32 sixBytes {} 0 [1, 2]
    noFault ⟨tailDisk, 0⟩) = some tailsOutcome by decide +kernel)
  have hlast : flushed noFault [1, 2] afterSilent = w.disk := congrArg (fun r ↦ r.2.disk) hrun
  have honce : flushed noFault [1, 2] tailDisk = w₁.disk := congrArg (fun r ↦ r.2.disk) hsingle
  refine ⟨hattempts, hsilent, by decide +kernel, ?_⟩
  rw [hlast, honce]
  exact replay_rejects_eq hattempts hsilent hrun hsingle (by decide) rfl rfl rejectsWork_noFault
    rejectsWork_noFault

/-- **Rejects recorded twice.** The tail of a segment is recorded by an attempt whose commit fails
and once more by the flush that commits. Under a cap of six bytes nothing is left then for the tail
of the next segment. -/
theorem replay_repeats_rejects :
    outcome? (run crc32 sixBytes {} 0 [1] (failing .manifestCreate 0) ⟨tailDisk, 0⟩) = none ∧
      (flushed (failing .manifestCreate 0) [1] tailDisk).manifest = tailDisk.manifest ∧
      (flushed noFault [1] tailDisk).rejectsOf 1 = [1, 2, 3] ∧
      (flushed noFault [1] (flushed (failing .manifestCreate 0) [1] tailDisk)).rejectsOf 1 =
        [1, 2, 3, 1, 2, 3] ∧
      (flushed noFault [2] (flushed noFault [1] tailDisk)).rejectsOf 2 = [4, 5, 6] ∧
      (flushed noFault [2] (flushed noFault [1]
        (flushed (failing .manifestCreate 0) [1] tailDisk))).rejectsOf 2 = [] := by
  decide +kernel

end Orc
