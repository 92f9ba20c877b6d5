import Orc.Engine.Steps

/-!
# Segment ids

The next segment's id is one above the highest of the segments and the watermark. While an engine
runs, that highest id never goes down: a flush deletes only what the watermark covers, and moves
aside only segments below the active one. A start is different. Recovery removes a tail that has no
header, or moves it aside, and only the creation of the next segment puts a file above it again. If
the start ends in between, the next one computes the same id once more (`tail_id_reused`); if no
start does, ids are never used twice (`segment_ids_increase`).

What makes an id used is that a file of that name was created, not that anything was written to it,
so `Ids` follows the highest id over the segments, the files moved aside and the watermark. A
segment moved aside keeps its id in its name, and a second one of the same id would replace it; this
is how the reuse of an id could lose data, and why the ids of those files are part of the statement.

## The hypothesis

The hypothesis on starts is a property of a step (`Carries`): a start that finds an unusable tail
gets as far as creating the next segment. It says nothing of faults as such; a start may fail
anywhere else. With it goes that ids are 64-bit numbers (`IdsFit`). The writer of the source adds
one to an unsigned 64-bit id and the model to a natural number, and they agree only below the bound
(`CarriesWithin`).
-/

namespace Orc

open Bytes Fault

/-- Recovery will remove the tail or move it aside. -/
def Disk.TailUnusable (d : Disk) : Prop :=
  ∃ tail b e, d.IsTail d.watermark tail ∧ d.bytesAt tail = some b ∧
    parseSegmentHeader b = .error e ∧ e ≠ .corrupt unsupportedVersion

/-- A start on a directory whose tail is unusable carries out the operations between recovery and
the creation of the next segment. -/
def Carries (n : Node) (o : Oracle Op) (e : Event) : Prop :=
  e.Starts n → n.site.disk.TailUnusable → ¬ StartInterrupted o

/-- The id of the next segment, that of a start or that of a roll, is a 64-bit number. -/
def IdsFit (n : Node) (_ : Oracle Op) (_ : Event) : Prop :=
  n.site.disk.top < u64Max ∧ ∀ a, n.site.log.state.active = some a → a.id < u64Max

/-- Events as `Carries` has them, while ids are 64-bit numbers. -/
def CarriesWithin (n : Node) (o : Oracle Op) (e : Event) : Prop := Carries n o e ∧ IdsFit n o e

/-- Where ids stand, seen from an earlier directory `d₀`. -/
structure Ids (d₀ : Disk) (x : ℕ × Site) : Prop where
  grown : d₀.top ≤ x.2.disk.top
  fresh : ∀ k ∈ x.2.disk.wal, k ∈ d₀.wal ∨ d₀.top < k
  bounded : ∀ id ∈ x.2.disk.corrupt, id ≤ x.2.disk.top
  apart : ∀ id ∈ x.2.disk.corrupt, id ∉ x.2.disk.wal
  kept : ∀ (id : ℕ) (b : Bytes), d₀.corrupt[id]? = some b → x.2.disk.corrupt[id]? = some b
  /-- The next segment of the writer is above all others, unless its file is there already. -/
  next : ∀ a, x.2.log.state.active = some a → a.id + 1 ∉ x.2.disk.wal → x.2.disk.top ≤ a.id

section Steps

variable {crc : Bytes → UInt32} {o : Oracle Op} {clean : Prop} {d₀ : Disk}

namespace Ids

private theorem here {x : ℕ × Site} (h : Ids d₀ x) : Ids x.2.disk x :=
  ⟨le_rfl, fun _ ↦ .inl, h.bounded, h.apart, fun _ _ ↦ id, h.next⟩

theorem mem_quarantined {d : Disk} {id k : ℕ} {b : Bytes} :
    k ∈ (d.quarantined id b).corrupt ↔ k = id ∨ k ∈ d.corrupt := by
  rw [Disk.quarantined, Std.ExtTreeMap.mem_insert, Nat.compare_eq_eq, eq_comm]

theorem kept_quarantined {d : Disk} {id : ℕ} {f : SegFile} (hf : d.wal[id]? = some f)
    (hapart : ∀ k ∈ d.corrupt, k ∉ d.wal)
    (hkept : ∀ (k : ℕ) (b : Bytes), d₀.corrupt[k]? = some b → d.corrupt[k]? = some b)
    (k : ℕ) (b : Bytes)
    (hk : d₀.corrupt[k]? = some b) : (d.quarantined id f.bytes).corrupt[k]? = some b := by
  have hold := hkept k b hk
  have hne : id ≠ k := by
    rintro rfl
    exact hapart id (mem_of_getElem? hold) (mem_of_getElem? hf)
  rw [Disk.quarantined, getElem?_insert_of_ne hne, hold]

private theorem effect {w w' : ℕ} {s : Site} {d : Disk} (h : Ids d₀ (w, s)) (hs : Sound (w, s))
    (heffect : Effect crc o clean s.active (w, s.disk) (w', d)) :
    Ids d₀ (w', { s with disk := d }) := by
  obtain ⟨-, -, htop⟩ := heffect.top_eq hs.low hs.high
  have hwal := heffect.onWal
  have hnext : ∀ a, s.log.state.active = some a → a.id + 1 ∉ d.wal → d.top ≤ a.id := by
    intro a ha hnot
    have hactive : s.active = a.id := Site.active_eq ha
    refine htop.trans_le (h.next a ha fun hmem ↦ hnot (hwal.mem_wal_of_le ?_ ?_ hmem))
    · exact hactive.symm ▸ hs.low.trans_lt (hs.live a ha).1
    · exact hactive.symm ▸ Nat.le_succ _
  have hfresh : ∀ k ∈ d.wal, k ∈ d₀.wal ∨ d₀.top < k := fun k hk ↦ h.fresh k (hwal.mem_wal hk)
  -- only moving a segment aside changes the files moved aside
  have hsame : d.corrupt = s.disk.corrupt → Ids d₀ (w', { s with disk := d }) := by
    intro hcorrupt
    refine ⟨h.grown.trans_eq htop.symm, hfresh, ?_, ?_, ?_, hnext⟩
    · exact fun id hid ↦ (h.bounded id (hcorrupt ▸ hid)).trans_eq htop.symm
    · exact fun id hid hmem ↦ h.apart id (hcorrupt ▸ hid) (hwal.mem_wal hmem)
    · exact fun id b hb ↦ hcorrupt ▸ h.kept id b hb
  cases hwal with
  | same _ hcorrupt => exact hsame hcorrupt
  | delete _ heq => exact hsame (heq ▸ rfl)
  | truncate _ _ _ heq => exact hsame (heq ▸ rfl)
  | @setAside id f e hf _ _ _ heq =>
    subst heq
    have hmem : id ∈ s.disk.wal := mem_of_getElem? hf
    refine ⟨h.grown.trans_eq htop.symm, hfresh, fun k hk ↦ ?_, fun k hk hk' ↦ ?_,
      kept_quarantined hf h.apart h.kept, hnext⟩
    · rcases mem_quarantined.1 hk with rfl | hk
      · exact (Disk.le_top hmem).trans_eq htop.symm
      · exact (h.bounded k hk).trans_eq htop.symm
    · obtain ⟨hwal, hne⟩ := Disk.mem_wal_erase.1 hk'
      exact h.apart k ((mem_quarantined.1 hk).resolve_left hne) hwal

theorem shifts {w w' : ℕ} {s : Site} {log : Log} (h : Ids d₀ (w, s)) (hshifts : s.wal.Shifts log) :
    Ids d₀ (w', s.setWal log) := by
  cases hshifts with
  | idle hbytes hactive =>
    have hmem : ∀ k, k ∈ (s.setWal log).disk.wal ↔ k ∈ s.disk.wal := by
      intro k
      change k ∈ log.dir ↔ k ∈ s.wal.dir
      rw [Log.mem_dir_iff_bytesAt, Log.mem_dir_iff_bytesAt, hbytes]
    have htop : (s.setWal log).disk.top = s.disk.top := Disk.top_congr hmem rfl
    refine ⟨h.grown.trans_eq htop.symm, fun k hk ↦ h.fresh k ((hmem k).1 hk),
      fun id hid ↦ (h.bounded id hid).trans_eq htop.symm,
      fun id hid hk ↦ h.apart id hid ((hmem id).1 hk),
      h.kept, fun a ha hnot ↦ htop.trans_le (h.next a (hactive ▸ ha) (mt (hmem _).2 hnot))⟩
  | @works a ha hwrites hfollows =>
    have hold : ∀ k ∈ s.disk.wal, k ∈ (s.setWal log).disk.wal := fun k ↦ hwrites.mem_dir
    have hnew : ∀ k ∈ (s.setWal log).disk.wal, k ∈ s.disk.wal ∨ k = a.id + 1 ∧ s.disk.top < k := by
      intro k hk
      change k ∈ log.dir at hk
      rw [Log.mem_dir_iff_bytesAt] at hk
      have hthere : k ∈ s.wal.dir ↔ (s.wal.bytesAt k).isSome = true := Log.mem_dir_iff_bytesAt
      rcases hwrites.bytesAt_cases k with heq | ⟨-, x, heq⟩ | ⟨rfl, hnot, -⟩
      · exact .inl (hthere.2 (heq ▸ hk))
      · rw [heq, Option.isSome_map] at hk
        exact .inl (hthere.2 hk)
      · exact .inr ⟨rfl, Nat.lt_succ_of_le (h.next a ha hnot)⟩
    have hle : s.disk.top ≤ (s.setWal log).disk.top :=
      Disk.top_le (fun k hk ↦ Disk.le_top (hold k hk)) (le_max_right _ _)
    refine ⟨h.grown.trans hle, fun k hk ↦ ?_, fun id hid ↦ (h.bounded id hid).trans hle,
      fun id hid hk ↦ ?_, h.kept, fun a' ha' hnot ↦ ?_⟩
    · rcases hnew k hk with hk | ⟨-, hlt⟩
      · exact h.fresh k hk
      · exact .inr (h.grown.trans_lt hlt)
    · rcases hnew id hk with hk | ⟨-, hlt⟩
      · exact h.apart id hid hk
      · exact absurd (h.bounded id hid) (not_le.2 hlt)
    · rcases hfollows a' ha' with heq | ⟨heq, hnot', -⟩
      · -- the same segment is active, and its successor is not there
        rw [heq] at hnot ⊢
        have htop := h.next a ha fun hk ↦ hnot (hold _ hk)
        refine Disk.top_le (fun k hk ↦ ?_) (le_trans (le_max_right _ _) htop)
        rcases hnew k hk with hk' | ⟨rfl, -⟩
        · exact (Disk.le_top hk').trans htop
        · exact absurd hk hnot
      · have htop := h.next a ha hnot'
        rw [heq]
        refine Disk.top_le (fun k hk ↦ ?_)
          ((le_trans (le_max_right _ _) htop).trans (Nat.le_succ _))
        rcases hnew k hk with hk' | ⟨rfl, -⟩
        · exact (Disk.le_top hk').trans (htop.trans (Nat.le_succ _))
        · exact le_rfl

private theorem move {x y : ℕ × Site} (h : Ids d₀ x) (hs : Sound x) (hmove : Move crc o clean x y) :
    Ids d₀ y := by
  cases hmove with
  | disk heffect => exact h.effect hs heffect
  | log hchange => exact h.shifts hchange.shifts

private theorem stop {w : ℕ} {s : Site} {log : Log} (h : Ids d₀ (w, s)) (hstop : Stop s.wal log) :
    Ids d₀ (halted (s.setWal log).disk) := by
  have hshifts : Ids d₀ (0, s.setWal log) := h.shifts hstop.shifts
  exact ⟨hshifts.grown, hshifts.fresh, hshifts.bounded, hshifts.apart, hshifts.kept, nofun⟩

private theorem withSegment {d d' : Disk} {log : Log} {w n k : ℕ} (h : Ids d₀ (halted d))
    (hrecovered : Recovered d.watermark d d')
    (hactive : ∀ a, log.state.active = some a → a.id = d.top + 1) :
    Ids d₀ (w, ⟨d'.withSegment (d.top + 1) n k, log⟩) := by
  have hmem : ∀ j ∈ (d'.withSegment (d.top + 1) n k).wal, j ∈ d'.wal ∨ j = d.top + 1 := by
    intro j hj
    rcases Std.ExtTreeMap.mem_insert.1 hj with heq | hj
    · exact .inr (Nat.compare_eq_eq.1 heq).symm
    · exact .inl hj
  have htop : (d'.withSegment (d.top + 1) n k).top = d.top + 1 := by
    refine le_antisymm (Disk.top_le (fun j hj ↦ ?_) ?_)
      (Disk.le_top Std.ExtTreeMap.mem_insert_self)
    · rcases hmem j hj with hj | rfl
      · exact (Disk.le_top (hrecovered.mem_wal hj)).trans (Nat.le_succ _)
      · exact le_rfl
    · exact (hrecovered.watermark.trans_le Disk.watermark_le_top).trans (Nat.le_succ _)
  have hcorrupt : (∀ j ∈ d'.corrupt, j ≤ d.top) ∧ (∀ j ∈ d'.corrupt, j ∉ d'.wal) ∧
      ∀ (j : ℕ) (b : Bytes), d₀.corrupt[j]? = some b → d'.corrupt[j]? = some b := by
    cases hrecovered with
    | kept => exact ⟨h.bounded, h.apart, h.kept⟩
    | dropped => exact ⟨h.bounded, fun j hj hk ↦ h.apart j hj (Disk.mem_wal_erase.1 hk).1, h.kept⟩
    | setAside htail hf =>
      refine ⟨fun j hj ↦ ?_, fun j hj hk ↦ ?_, kept_quarantined hf h.apart h.kept⟩
      · rcases mem_quarantined.1 hj with rfl | hj
        · exact Disk.le_top htail.mem
        · exact h.bounded j hj
      · obtain ⟨hwal, hne⟩ := Disk.mem_wal_erase.1 hk
        exact h.apart j ((mem_quarantined.1 hj).resolve_left hne) hwal
  refine ⟨(h.grown.trans (Nat.le_succ _)).trans_eq htop.symm, fun j hj ↦ ?_,
    fun j hj ↦ ((hcorrupt.1 j hj).trans (Nat.le_succ _)).trans_eq htop.symm, fun j hj hk ↦ ?_,
    hcorrupt.2.2, fun a ha _ ↦ htop.trans_le (hactive a ha).ge⟩
  · rcases hmem j hj with hj | rfl
    · exact h.fresh j (hrecovered.mem_wal hj)
    · exact .inr (Nat.lt_succ_of_le h.grown)
  · rcases hmem j hk with hk | rfl
    · exact hcorrupt.2.1 j hj hk
    · exact absurd (hcorrupt.1 _ hj) (Nat.not_succ_le_self _)

end Ids

/-! ## The tail at a start -/

theorem Recovered.unusable {d d' : Disk} (h : Recovered d.watermark d d') (hne : d' ≠ d) :
    d.TailUnusable := by
  cases h with
  | kept => exact absurd rfl hne
  | dropped htail hf hheader => exact ⟨_, _, _, htail, Disk.bytesAt_of_mem hf, hheader, nofun⟩
  | setAside htail hf hheader hreason =>
    exact ⟨_, _, _, htail, Disk.bytesAt_of_mem hf, hheader, fun h ↦
      hreason (DecodeError.corrupt.inj h)⟩

theorem Effect.unusable {w w' : ℕ} {d d' : Disk} (h : Effect crc o clean 0 (w, d) (w', d'))
    (hd' : d'.TailUnusable) : d.TailUnusable := by
  have hwatermark := h.watermark_eq
  obtain ⟨tail, b, e, htail, hb, hheader, hne⟩ := hd'
  have hmem := h.onWal.mem_wal htail.mem
  have habove : d.watermark < tail := hwatermark ▸ htail.above
  -- a segment that is gone was covered by the watermark
  have hhighest : ∀ k ∈ d.wal, k ≤ tail := by
    intro k hk
    by_contra hlt
    have hk' : k ∈ d'.wal := by
      cases h.onWal with
      | same hbytes => rwa [Disk.mem_iff_bytesAt, hbytes, ← Disk.mem_iff_bytesAt]
      | setAside _ _ _ hnext => exact absurd hnext (Nat.not_lt_zero _)
      | delete hid heq =>
        refine heq ▸ Disk.mem_wal_erase.2 ⟨hk, ?_⟩
        omega
      | truncate _ _ _ heq => exact heq ▸ Disk.mem_onSegment.2 hk
    exact hlt (htail.highest k hk')
  have hbytes : d.bytesAt tail = some b := by
    cases h.onWal with
    | same hbytes => rwa [← hbytes]
    | setAside _ _ _ hnext => exact absurd hnext (Nat.not_lt_zero _)
    | @delete id hid heq =>
      subst heq
      rw [Disk.bytesAt_erase rfl] at hb
      split_ifs at hb with hk
      exact hb
    | @truncate id hid f fs rest hf hok hcut heq =>
      subst heq
      rw [Disk.bytesAt_onSegment] at hb
      split_ifs at hb with hk
      · -- a segment that has been cut off has a header
        subst hk
        rw [hf, Option.map_some, Option.some.injEq] at hb
        rw [← hb, SegFile.truncate, parseSegmentHeader_take _ (Nat.le_add_right _ _),
          hok] at hheader
        cases hheader
      · exact hb
  exact ⟨tail, b, e, ⟨hmem, habove, hhighest⟩, hbytes, hheader, hne⟩

/-- Before a start comes to the tail there is no writer, and a tail that is unusable was so from the
beginning. -/
theorem Moves.unusable {d d₁ : Disk} (h : Moves crc o clean (halted d) (halted d₁))
    (hd₁ : d₁.TailUnusable) : d.TailUnusable := by
  refine (h.keeps (I := fun x ↦ x.2.log.state.active = none ∧ x.2.disk.watermark = x.1 ∧
    (x.2.disk.TailUnusable → d.TailUnusable)) ?_ (sound_down d) ⟨rfl, rfl, id⟩).2.2.2 hd₁
  rintro x y - ⟨hnone, hw, hd⟩ hmove
  cases hmove with
  | @disk w w' s d' heffect =>
    have hactive : s.active = 0 := by
      rw [Site.active, hnone]
      rfl
    rw [hactive] at heffect
    exact ⟨hnone, heffect.watermark (.inr rfl) hw, fun hd' ↦ hd (heffect.unusable hd')⟩
  | @log w s act log hchange =>
    cases hchange.shifts with
    | idle hbytes hactive =>
      refine ⟨hactive.trans hnone, hw, ?_⟩
      rintro ⟨tail, b, e, htail, hb, hheader⟩
      have hbytes' : ∀ k, (s.setWal log).disk.bytesAt k = s.disk.bytesAt k := congrFun hbytes
      have hmem : ∀ k, k ∈ (s.setWal log).disk.wal ↔ k ∈ s.disk.wal := fun k ↦ by
        rw [Disk.mem_iff_bytesAt, Disk.mem_iff_bytesAt, hbytes']
      exact hd ⟨tail, b, e, ⟨(hmem _).1 htail.mem, htail.above,
        fun k hk ↦ htail.highest k ((hmem k).2 hk)⟩,
        (hbytes' tail).symm.trans hb, hheader⟩
    | works ha => exact absurd (hnone.symm.trans ha) (Option.some_ne_none _).symm

theorem Ids.begins {d₁ : Disk} {y : ℕ × Site} (h : Ids d₀ (halted d₁)) (hbegins : Begins o d₁ y)
    (hcarries : d₁.TailUnusable → ¬ StartInterrupted o) : Ids d₀ y := by
  cases hbegins with
  | failed => exact h
  | @interrupted d' hrecovered ho =>
    by_cases hne : d' = d₁
    · exact hne ▸ h
    · exact absurd ho (hcarries (hrecovered.unusable hne))
  | created hrecovered => exact h.withSegment hrecovered nofun
  | opened hrecovered =>
    refine h.withSegment hrecovered fun a ha ↦ ?_
    obtain rfl := Option.some.inj ha
    rfl

theorem Ids.after {lower : String → String} {n : Node} {e : Event} (h : Ids d₀ n.view)
    (hs : Sound n.view) (hcarries : Carries n o e)
    (hturn : Turn crc o clean (e.Starts n) n.view (n.after crc lower o e).view) :
    Ids d₀ (n.after crc lower o e).view := by
  refine (hturn.keeps (fun _ _ hs h hmove ↦ h.move hs hmove) (fun _ _ _ _ h hstop ↦ h.stop hstop)
    (fun hstarts d d₁ y hd hmoves h hbegins ↦ ?_) hs h).2
  have hdisk : n.site.disk = d := congrArg (fun x ↦ x.2.disk) hd
  exact h.begins hbegins fun hunusable ↦ hcarries hstarts (hdisk ▸ hmoves.unusable hunusable)

theorem Node.Reaches.ids {lower : String → String} {n n' : Node}
    (h : Node.Reaches crc lower CarriesWithin n n') (hs : Sound n.view) (ht : n.Tidy False)
    (hn : Ids d₀ n.view) :
    Sound n'.view ∧ n'.Tidy False ∧ Ids d₀ n'.view :=
  h.keeps False (fun _ _ _ _ ↦ False.elim)
    (fun _ _ _ hcarries hs _ h hturn ↦ h.after hs hcarries.1 hturn) hs ht hn

end Steps

/-- **Segment ids are never reused.** On any directory where the files moved aside have ids of their
own, within those in use, and in every run in which each start that finds an unusable tail gets as
far as creating the next segment and ids stay 64-bit numbers, with any other faults and crashes: the
id of a segment that an event creates is above every id that a segment, in `wal/` or moved aside,
ever had before; a file moved aside is never replaced, and its id is never that of a segment. -/
theorem segment_ids_increase (crc : Bytes → UInt32) (lower : String → String) {d₀ : Disk}
    (hd₀ : ∀ id ∈ d₀.corrupt, id ≤ d₀.top ∧ id ∉ d₀.wal) {n n' n'' : Node}
    (h : Node.Reaches crc lower CarriesWithin (.down d₀) n)
    (h' : Node.Reaches crc lower CarriesWithin n n')
    (hnext : Node.Next crc lower CarriesWithin n' n'') :
    (∀ id, id ∈ n.site.disk.wal ∨ id ∈ n.site.disk.corrupt →
      ∀ k ∈ n''.site.disk.wal, k ∉ n'.site.disk.wal → id < k) ∧
    (∀ (id : ℕ) (b : Bytes), n.site.disk.corrupt[id]? = some b →
      n''.site.disk.corrupt[id]? = some b) ∧
    ∀ id ∈ n''.site.disk.corrupt, id ∉ n''.site.disk.wal := by
  have hstart : Ids d₀ (halted d₀) := ⟨le_rfl, fun _ ↦ .inl, fun id hid ↦ (hd₀ id hid).1,
    fun id hid ↦ (hd₀ id hid).2, fun _ _ hb ↦ hb, nofun⟩
  obtain ⟨hs, ht, hn⟩ := h.ids (sound_down d₀) (Node.tidy_down False.elim) hstart
  obtain ⟨hs', ht', hn'⟩ := h'.ids hs ht hn.here
  have hstep : Node.Reaches crc lower CarriesWithin n' n'' := .single hnext
  have hrun : Node.Reaches crc lower CarriesWithin n n'' := h'.tail hnext
  have hall := (hrun.ids hs ht hn.here).2.2
  have hlast := (hstep.ids hs' ht' hn'.here).2.2
  refine ⟨fun id hid k hk hnew ↦ ?_, hall.kept, hall.apart⟩
  have hid : id ≤ n.site.disk.top := hid.elim Disk.le_top (hn.bounded id)
  exact (hid.trans hn'.grown).trans_lt ((hlast.fresh k hk).resolve_left hnew)

private def keyless : Config := { series := [⟨"t", []⟩] }

private def startWith (o : Oracle Op) (n : Node) : Node := n.after crc32 id o (.start keyless 0)

/-- A directory whose only segment has a damaged header. -/
private def damaged : Disk where
  wal := {(5, ⟨List.replicate segmentHeaderBytes 0, segmentHeaderBytes⟩)}
  manifest := some (.whole { lastFlushedSegment := 4 })

/-- **The id of a tail is used again.** A start is stopped when it has created its first segment and
not written the header; the next removes that file and is stopped; a third creates segment 1 anew.
So does a start on a damaged tail that is stopped when it has moved it aside: segment 5 is then
created next to the file `5.wal.corrupt`. -/
theorem tail_id_reused :
    let torn := startWith (crashing .segmentHeader) (.down {})
    let removed := startWith (crashing .walDirSync) torn
    let aside := startWith (crashing .walDirSync) (.down damaged)
    torn.site.disk.wal.keys = [1] ∧ removed.site.disk.wal.keys = [] ∧
      (startWith noFault removed).site.disk.wal.keys = [1] ∧
      aside.site.disk.wal.keys = [] ∧ aside.site.disk.corrupt.keys = [5] ∧
      (startWith noFault aside).site.disk.wal.keys = [5] ∧
      (startWith noFault aside).site.disk.corrupt.keys = [5] := by
  decide +kernel

theorem not_startInterrupted_noFault : ¬ StartInterrupted noFault := by
  rintro (⟨t, h⟩ | ⟨t, h⟩ | ⟨t, h⟩ | ⟨t, h⟩)
  all_goals exact h rfl

/-- The damaged tail is moved aside, and the segment created next is number 6. -/
theorem segment_ids_increase_damaged :
    Node.Next crc32 id CarriesWithin (.down damaged) (startWith noFault (.down damaged)) ∧
      (startWith noFault (.down damaged)).site.disk.corrupt.keys = [5] ∧
      (startWith noFault (.down damaged)).site.disk.wal.keys = [6] ∧
      ∀ k ∈ (startWith noFault (.down damaged)).site.disk.wal, k ∉ damaged.wal → 5 < k := by
  have hnext : Node.Next crc32 id CarriesWithin (.down damaged)
    (startWith noFault (.down damaged)) :=
    ⟨noFault, .start keyless 0, ⟨fun _ _ ↦ not_startInterrupted_noFault, by decide +kernel, nofun⟩,
      rfl⟩
  have hnone : ∀ id ∈ damaged.corrupt, id ≤ damaged.top ∧ id ∉ damaged.wal := by
    intro id hid
    rw [← Std.ExtTreeMap.isSome_getElem?_iff_mem] at hid
    simp [damaged] at hid
  have hthere : 5 ∈ damaged.wal := by decide +kernel
  exact ⟨hnext, by decide +kernel, by decide +kernel,
    (segment_ids_increase crc32 id hnone .refl .refl hnext).1 5 (.inl hthere)⟩

end Orc
