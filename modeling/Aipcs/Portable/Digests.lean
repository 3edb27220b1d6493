import Aipcs.Portable.Trailer

/-!
# Portable — lines and ordered digests

A frame's line has its one newline at the end, so a run of lines comes
apart in one way only (`lines_injective`). `OrderedBundleDigests` is the
authority that writer and reader share: it admits the next frame or
refuses it, and counts and hashes what it admitted. After any run of
admitted frames it is the summary of those frames
(`OrderedBundleDigests.ofFrames`), and the frames stand in the bundle's
order (`WellOrdered`).
-/

namespace Aipcs

namespace Portable

/-! ## Lines -/

theorem newline_notMem_utf8EncodeChar {c : Char} (hc : c ≠ '\n') :
    (10 : UInt8) ∉ String.utf8EncodeChar c := by
  have hmod : ∀ n : ℕ, (10 : UInt8) = UInt8.ofNat n → n % 256 = 10 := by
    intro n h
    have := congrArg UInt8.toNat h
    simpa using this.symm
  intro h
  unfold String.utf8EncodeChar at h
  simp only at h
  split_ifs at h with h1 h2 h3
  · have := hmod _ (List.mem_singleton.mp h)
    refine hc (Char.ext (UInt32.toNat_inj.mp ?_))
    change c.val.toNat = 10
    omega
  all_goals simp only [List.mem_cons, List.not_mem_nil, or_false] at h
  · rcases h with h | h <;> have := hmod _ h <;> omega
  · rcases h with h | h | h <;> have := hmod _ h <;> omega
  · rcases h with h | h | h | h <;> have := hmod _ h <;> omega

theorem newline_notMem_encodeChar {c d : Char} (h : d ∈ encodeChar c) : d ≠ '\n' := by
  have hhex : ∀ n < 16, hexDigit n ≠ '\n' := by decide
  rintro rfl
  unfold encodeChar at h
  split_ifs at h with h1 h2 h3 h4 h5 h6 h7 h8
  all_goals simp only [List.mem_cons, List.not_mem_nil, or_false] at h
  · rcases h with h | h <;> exact absurd h (by decide)
  · rcases h with h | h <;> exact absurd h (by decide)
  · rcases h with h | h <;> exact absurd h (by decide)
  · rcases h with h | h <;> exact absurd h (by decide)
  · rcases h with h | h <;> exact absurd h (by decide)
  · rcases h with h | h <;> exact absurd h (by decide)
  · rcases h with h | h <;> exact absurd h (by decide)
  · rcases h with h | h | h | h | h | h
    · exact absurd h (by decide)
    · exact absurd h (by decide)
    · exact absurd h (by decide)
    · exact absurd h (by decide)
    · exact hhex _ (by omega) h.symm
    · exact hhex _ (by omega) h.symm
  · exact h3 h.symm

theorem newline_notMem_encodeString (s : String) : '\n' ∉ encodeString s := by
  intro h
  rw [encodeString, List.mem_cons, List.mem_append] at h
  rcases h with h | h | h
  · exact absurd h (by decide)
  · obtain ⟨c, -, hc⟩ := List.mem_flatMap.mp h
    exact newline_notMem_encodeChar hc rfl
  · exact absurd h (by decide)

theorem newline_notMem_literal {l : Literal} (hl : l.WellFormed) : '\n' ∉ l.text := by
  intro h
  rcases Literal.mem_text hl h with h | h | h | h | h <;> exact absurd h (by decide)

mutual

theorem newline_notMem_encodeJson : ∀ v : PortableJson, '\n' ∉ encodeJson v
  | .null => by decide
  | .bool true => by decide
  | .bool false => by decide
  | .int i => by
    rw [encodeJson, ← intLiteral_text]
    exact newline_notMem_literal (intLiteral_wellFormed _)
  | .float x => by
    rw [encodeJson, encodeBinary64_eq_text]
    exact newline_notMem_literal (canonicalLiteral_wellFormed _)
  | .str s => newline_notMem_encodeString s
  | .arr items => by
    have h := newline_notMem_encodeItems items
    rw [encodeJson]
    simpa using h
  | .obj entries => by
    have h := newline_notMem_encodeEntries entries
    rw [encodeJson]
    simpa using h

theorem newline_notMem_encodeItems : ∀ items : List PortableJson,
    '\n' ∉ joinComma (encodeItems items)
  | [] => by simp [encodeItems, joinComma]
  | v :: items => by
    have hv := newline_notMem_encodeJson v
    have hitems := newline_notMem_encodeItems items
    have htext := encodeItems_text v items []
    rw [List.append_nil, List.append_nil] at htext
    rw [htext]
    split_ifs
    · simpa using hv
    · simp [hv, hitems]

theorem newline_notMem_encodeEntries : ∀ entries : List (String × PortableJson),
    '\n' ∉ joinComma (encodeEntries entries)
  | [] => by simp [encodeEntries, joinComma]
  | (name, v) :: entries => by
    have hname := newline_notMem_encodeString name
    have hv := newline_notMem_encodeJson v
    have hentries := newline_notMem_encodeEntries entries
    have htext := encodeEntries_text name v entries []
    rw [List.append_nil, List.append_nil] at htext
    rw [htext]
    split_ifs
    · simp [hname, hv]
    · simp [hname, hv, hentries]

end

/-- A canonical value is one line of bytes. -/
theorem newline_notMem_bytes (v : PortableJson) : (10 : UInt8) ∉ utf8Encode (encodeJson v) := by
  intro h
  obtain ⟨c, hc, hb⟩ := List.mem_flatMap.mp h
  have hne : c ≠ '\n' := by
    rintro rfl
    exact newline_notMem_encodeJson v hc
  exact newline_notMem_utf8EncodeChar hne hb

/-- The lines of a run of frames. -/
def lines (frames : List PortableFrame) : List UInt8 := frames.flatMap PortableFrame.line

@[simp] theorem lines_nil : lines [] = [] := rfl

@[simp] theorem lines_append (fs gs : List PortableFrame) : lines (fs ++ gs) = lines fs ++ lines gs :=
  List.flatMap_append

@[simp] theorem lines_singleton (f : PortableFrame) : lines [f] = f.line := by simp [lines]

/-- A line ends at its newline. -/
theorem line_append_inj {a b rest rest' : List UInt8} (ha : (10 : UInt8) ∉ a)
    (hb : (10 : UInt8) ∉ b) (h : (a ++ [10]) ++ rest = (b ++ [10]) ++ rest') :
    a = b ∧ rest = rest' := by
  induction a generalizing b with
  | nil =>
    cases b with
    | nil => exact ⟨rfl, by simpa using h⟩
    | cons y b =>
      have : (10 : UInt8) = y := by simpa using (List.cons.inj h).1
      exact absurd (this ▸ List.mem_cons_self) hb
  | cons x a ih =>
    cases b with
    | nil =>
      have : x = (10 : UInt8) := by simpa using (List.cons.inj h).1
      exact absurd (this ▸ List.mem_cons_self) ha
    | cons y b =>
      obtain ⟨rfl, htail⟩ := List.cons.inj h
      obtain ⟨rfl, hrest⟩ := ih (fun hm => ha (List.mem_cons_of_mem _ hm))
        (fun hm => hb (List.mem_cons_of_mem _ hm)) htail
      exact ⟨rfl, hrest⟩

/-- The frame is what its line is decoded as. -/
def Readable (f : PortableFrame) : Prop :=
  (decodeCanonicalJsonObject f.line.dropLast).bind decodeNonTrailerFrame = some f

/-- **A run of lines comes apart in one way only.** -/
theorem lines_injective {fs gs : List PortableFrame} (hfs : ∀ f ∈ fs, Readable f)
    (hgs : ∀ g ∈ gs, Readable g) (h : lines fs = lines gs) : fs = gs := by
  induction fs generalizing gs with
  | nil =>
    cases gs with
    | nil => rfl
    | cons g gs => exact absurd h (by simp [lines, PortableFrame.line])
  | cons f fs ih =>
    cases gs with
    | nil => exact absurd h (by simp [lines, PortableFrame.line])
    | cons g gs =>
      obtain ⟨hbytes, hrest⟩ := line_append_inj (newline_notMem_bytes f.value)
        (newline_notMem_bytes g.value) h
      have hline : f.line = g.line := by rw [PortableFrame.line, hbytes, PortableFrame.line]
      have hf := hfs f List.mem_cons_self
      have hg := hgs g List.mem_cons_self
      rw [Readable, hline, hg] at hf
      rw [Option.some.inj hf, ih (fun f hf => hfs f (List.mem_cons_of_mem _ hf))
        (fun g hg => hgs g (List.mem_cons_of_mem _ hg)) hrest]

/-! ## The digests -/

/-- `OrderedBundleDigests`. A hash in progress is the bytes fed to it. -/
structure OrderedBundleDigests where
  nextOrdinal : ℕ := 0
  sectionIndex : ℕ := 0
  preTrailerByteCount : ℕ := 0
  root : List UInt8 := []
  hashed : SectionKind → List UInt8 := fun _ => []
  counts : SectionKind → ℕ := fun _ => 0

namespace OrderedBundleDigests

/-- The checks of `add`. -/
def Admits (d : OrderedBundleDigests) (frame : PortableFrame) (exactLine : List UInt8) : Prop :=
  [10] <:+ exactLine ∧ exactLine.length ≤ MAX_FRAME_BYTES ∧ frame.ordinal = d.nextOrdinal ∧
    frame.kind ≠ .audit ∧
    encodeNonTrailerFrame frame.kind frame.ordinal (.portable frame.payload) = some exactLine ∧
    d.sectionIndex ≤ frame.kind.index ∧
    (if frame.kind = .header then frame.ordinal = 0 ∧ d.counts .header = 0
      else d.counts .header = 1) ∧
    (if frame.kind = .service then frame.ordinal = 1 ∧ d.counts .service = 0
      else 1 < frame.kind.index → d.counts .service = 1) ∧
    d.nextOrdinal < MAX_BUNDLE_FRAMES - 1

instance (d : OrderedBundleDigests) (frame : PortableFrame) (exactLine : List UInt8) :
    Decidable (d.Admits frame exactLine) := by
  unfold Admits
  exact inferInstance

/-- `add`. -/
def add (d : OrderedBundleDigests) (frame : PortableFrame) (exactLine : List UInt8) :
    Option OrderedBundleDigests :=
  if d.Admits frame exactLine then
    some {
      nextOrdinal := d.nextOrdinal + 1
      sectionIndex := frame.kind.index
      preTrailerByteCount := d.preTrailerByteCount + exactLine.length
      root := d.root ++ exactLine
      hashed := Function.update d.hashed frame.kind (d.hashed frame.kind ++ exactLine)
      counts := Function.update d.counts frame.kind (d.counts frame.kind + 1) }
  else none

/-- `trailer`. -/
def trailer (d : OrderedBundleDigests) : Option PortableTrailer :=
  if d.counts .header ≠ 1 ∨ d.counts .service ≠ 1 then none
  else do
    let sections ← SECTION_KINDS.mapM fun kind =>
      PortableSection.make kind (d.counts kind) (hexdigest (d.hashed kind))
    PortableTrailer.make d.nextOrdinal d.preTrailerByteCount (hexdigest d.root) sections

/-- The digests of a run of frames. -/
def ofFrames (frames : List PortableFrame) : OrderedBundleDigests where
  nextOrdinal := frames.length
  sectionIndex := frames.getLast?.elim 0 fun f => f.kind.index
  preTrailerByteCount := (lines frames).length
  root := lines frames
  hashed := fun kind => lines (frames.filter fun f => f.kind = kind)
  counts := fun kind => frames.countP fun f => f.kind = kind

end OrderedBundleDigests

/-- The kinds of a bundle's frames: a header, a service, and the others
in section order. -/
def Grammar : List PortableFrame → Prop
  | [] => True
  | [h] => h.kind = .header
  | h :: s :: rest => h.kind = .header ∧ s.kind = .service ∧
    (∀ f ∈ rest, f.kind = .record ∨ f.kind = .history ∨ f.kind = .branch ∨
      f.kind = .branchMembership) ∧
    rest.Pairwise fun f g => f.kind.index ≤ g.kind.index

/-- Frames in the bundle's order, each sound and numbered by its place. -/
structure WellOrdered (frames : List PortableFrame) : Prop where
  grammar : Grammar frames
  ordinals : frames.map PortableFrame.ordinal = List.range frames.length
  sound : ∀ f ∈ frames, f.Sound

/-- A member of the trailing sections. -/
theorem memberKind_of_index {k : SectionKind} (h : 1 < k.index) (ha : k ≠ .audit) :
    k = .record ∨ k = .history ∨ k = .branch ∨ k = .branchMembership := by
  cases k with
  | header => exact absurd h (by decide)
  | service => exact absurd h (by decide)
  | audit => exact absurd rfl ha
  | _ => simp

/-- One more frame in the trailing sections. -/
theorem pairwise_append_last {rest : List PortableFrame} {f : PortableFrame}
    (h : rest.Pairwise fun f g => f.kind.index ≤ g.kind.index)
    (hlast : ∀ g ∈ rest.getLast?, g.kind.index ≤ f.kind.index) :
    (rest ++ [f]).Pairwise fun f g => f.kind.index ≤ g.kind.index := by
  rw [List.pairwise_append]
  refine ⟨h, List.pairwise_singleton _ _, fun a ha b hb => ?_⟩
  obtain rfl := List.mem_singleton.mp hb
  obtain ⟨init, last, rfl⟩ : ∃ init last, rest = init ++ [last] :=
    ⟨_, _, (List.dropLast_append_getLast (List.ne_nil_of_mem ha)).symm⟩
  have hlast := hlast last (by simp)
  rcases List.mem_append.mp ha with ha | ha
  · exact ((List.pairwise_append.mp h).2.2 a ha last (by simp)).trans hlast
  · rwa [List.mem_singleton.mp ha]

namespace OrderedBundleDigests

/-- **What the authority admits keeps the bundle's order**, and is the
frame's own line. -/
theorem admits_ofFrames {frames : List PortableFrame} {f : PortableFrame} {line : List UInt8}
    (hf : f.Sound) (hw : WellOrdered frames) (h : (ofFrames frames).Admits f line) :
    line = f.line ∧ WellOrdered (frames ++ [f]) := by
  obtain ⟨-, -, hordinal, haudit, hencode, hindex, hheader, hservice, -⟩ := h
  constructor
  · obtain ⟨g, hk, ho, hp, hg, rfl, -⟩ := encodeNonTrailerFrame_eq_some.mp hencode
    have hpayload : g.payload = f.payload := by
      have := freezeObject_eq_some.mp hp
      rw [freezePortableJson, freezeJson_portable] at this
      split_ifs at this
      exact PortableJsonObject.ext_value (Option.some.inj this).symm
    have hcore : g.core = f.core := by
      rw [PortableFrame.core, PortableFrame.core]
      simp only [hk, ho, hpayload]
    have hdigest : g.sha256 = f.sha256 := by rw [hg.digest, hf.digest, hcore]
    rw [PortableFrame.line, PortableFrame.line, PortableFrame.value, PortableFrame.value]
    simp only [hk, ho, hpayload, hdigest]
  · refine ⟨?_, ?_, ?_⟩
    · have hgrammar := hw.grammar
      rcases frames with _ | ⟨g, _ | ⟨s, rest⟩⟩
      · by_contra hk
        rw [if_neg (show ¬ f.kind = .header from hk)] at hheader
        exact absurd hheader (by simp [ofFrames])
      · have hcounts : (ofFrames [g]).counts .header = 1 ∧ (ofFrames [g]).counts .service = 0 := by
          constructor <;> simp [ofFrames, show g.kind = _ from hgrammar]
        rw [hcounts.1] at hheader
        rw [hcounts.2] at hservice
        have hk : f.kind = .service := by
          by_contra hk
          have hne : f.kind ≠ .header := fun hkh => by rw [if_pos hkh] at hheader; omega
          rw [if_neg hk] at hservice
          refine absurd (hservice ?_) (by omega)
          by_contra hle
          cases hkind : f.kind <;> rw [hkind] at hle hk hne <;> simp [SectionKind.index] at hle hk hne
        exact ⟨hgrammar, hk, by simp, by simp⟩
      · obtain ⟨hg, hs, hrest, hsorted⟩ := hgrammar
        have hpos : 0 < (ofFrames (g :: s :: rest)).counts .header ∧
            0 < (ofFrames (g :: s :: rest)).counts .service := by
          constructor <;> simp [ofFrames, hg, hs]
        have hneh : f.kind ≠ .header := fun hk => by rw [if_pos hk] at hheader; omega
        have hnes : f.kind ≠ .service := fun hk => by rw [if_pos hk] at hservice; omega
        have hlarge : 1 < f.kind.index := by
          by_contra hle
          cases hkind : f.kind <;> rw [hkind] at hle hneh hnes <;>
            simp [SectionKind.index] at hle hneh hnes
        refine ⟨hg, hs, ?_, pairwise_append_last hsorted fun l hl => ?_⟩
        · intro m hm
          rcases List.mem_append.mp hm with hm | hm
          · exact hrest m hm
          · rw [List.mem_singleton.mp hm]
            exact memberKind_of_index hlarge haudit
        · have hlast : (g :: s :: rest).getLast? = some l := by
            cases rest with
            | nil => exact absurd hl (by simp)
            | cons r rest => rw [List.getLast?_cons_cons, List.getLast?_cons_cons]; exact hl
          rwa [ofFrames, hlast] at hindex
    · rw [List.map_append, hw.ordinals, List.length_append, List.length_singleton,
        List.range_succ, List.map_singleton, hordinal]
      rfl
    · intro m hm
      rcases List.mem_append.mp hm with hm | hm
      · exact hw.sound m hm
      · rwa [List.mem_singleton.mp hm]

/-- Admitting one more frame is summarising one more frame. -/
theorem add_ofFrames {frames : List PortableFrame} {f : PortableFrame} {line : List UInt8}
    {d : OrderedBundleDigests} (hf : f.Sound) (hw : WellOrdered frames)
    (h : (ofFrames frames).add f line = some d) :
    line = f.line ∧ WellOrdered (frames ++ [f]) ∧ d = ofFrames (frames ++ [f]) := by
  unfold add at h
  split_ifs at h with hadmits
  obtain ⟨rfl, hw'⟩ := admits_ofFrames hf hw hadmits
  refine ⟨rfl, hw', ?_⟩
  rw [← Option.some.inj h]
  have hhashed : Function.update (ofFrames frames).hashed f.kind
      ((ofFrames frames).hashed f.kind ++ f.line) = (ofFrames (frames ++ [f])).hashed := by
    funext k
    by_cases hk : k = f.kind
    · subst hk
      simp [ofFrames]
    · simp [ofFrames, Function.update_of_ne hk, Ne.symm hk]
  have hcounts : Function.update (ofFrames frames).counts f.kind
      ((ofFrames frames).counts f.kind + 1) = (ofFrames (frames ++ [f])).counts := by
    funext k
    by_cases hk : k = f.kind
    · subst hk
      simp [ofFrames]
    · simp [ofFrames, Function.update_of_ne hk, Ne.symm hk]
  rw [hhashed, hcounts]
  simp [ofFrames]

/-- What a trailer of the authority says. -/
theorem trailer_eq_some {d : OrderedBundleDigests} {t : PortableTrailer} (h : d.trailer = some t) :
    t.ordinal = d.nextOrdinal ∧ t.preTrailerByteCount = d.preTrailerByteCount ∧
      t.rootSha256 = hexdigest d.root ∧
      t.sections.map (fun s => (s.kind, s.count, s.sha256)) =
        SECTION_KINDS.map fun kind => (kind, d.counts kind, hexdigest (d.hashed kind)) := by
  unfold trailer at h
  split_ifs at h
  simp only [Option.bind_eq_bind, Option.bind_eq_some_iff] at h
  obtain ⟨sections, hsections, hmake⟩ := h
  unfold PortableTrailer.make at hmake
  split_ifs at hmake
  obtain rfl := Option.some.inj hmake
  refine ⟨rfl, rfl, rfl, ?_⟩
  have hall : ∀ (ks : List SectionKind) (ss : List PortableSection),
      (ks.mapM fun kind => PortableSection.make kind (d.counts kind) (hexdigest (d.hashed kind)))
        = some ss → ss.map (fun s => (s.kind, s.count, s.sha256)) =
          ks.map fun kind => (kind, d.counts kind, hexdigest (d.hashed kind)) := by
    intro ks
    induction ks with
    | nil => intro ss hss; obtain rfl := Option.some.inj (List.mapM_nil.symm.trans hss); rfl
    | cons k ks ih =>
      intro ss hss
      rw [List.mapM_cons] at hss
      simp only [Option.bind_eq_bind, Option.bind_eq_some_iff, Option.pure_def] at hss
      obtain ⟨s, hs, rest, hrest, hss⟩ := hss
      obtain rfl := Option.some.inj hss
      unfold PortableSection.make at hs
      split_ifs at hs
      obtain rfl := Option.some.inj hs
      rw [List.map_cons, List.map_cons, ih rest hrest]
  exact hall _ _ hsections

end OrderedBundleDigests

end Portable

end Aipcs
