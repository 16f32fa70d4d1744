import ConcurrentServers.Metrics.Render

/-!
# Reading the text back

A reader of the exposition format: comment lines are skipped, and every other
line is a name, the labels `model` and possibly `le`, and a value. On what
`metrics_render` writes it finds the samples that were meant, because the names,
labels and numerals contain none of the delimiters.
-/

namespace ConcurrentServers.Metrics

open Systems
open Systems.Text (ascii decimal signed padded cut parseNat parseInt parseFixed)

/-! ## The reader -/

structure Sample where
  name : List UInt8
  model : List UInt8
  le : Option (List UInt8)
  value : List UInt8

def parseSample (line : List UInt8) : Option Sample := do
  let (name, rest) ← cut '\x7b'.toUInt8 line
  let rest ← rest.dropPrefix? (ascii "model=\"")
  let (model, rest) ← cut '\x22'.toUInt8 rest
  match rest.dropPrefix? (ascii ",le=\"") with
  | none =>
      let value ← rest.dropPrefix? (ascii "\x7d ")
      some ⟨name, model, none, value⟩
  | some rest =>
      let (le, rest) ← cut '\x22'.toUInt8 rest
      let value ← rest.dropPrefix? (ascii "\x7d ")
      some ⟨name, model, some le, value⟩

/-- A comment has no sample. -/
def parseLine (line : List UInt8) : Option (List Sample) :=
  if line.head? = some '#'.toUInt8 then some [] else (parseSample line).map ([·])

/-- Every line ends in a newline, so nothing is left behind the last one. -/
def parseLines : List (List UInt8) → Option (List Sample)
  | [] => none
  | [rest] => if rest = [] then some [] else none
  | line :: lines => do
      let first ← parseLine line
      let rest ← parseLines lines
      some (first ++ rest)

def parse (text : List UInt8) : Option (List Sample) := parseLines (text.splitOn '\n'.toUInt8)

/-! ## Lines that the reader understands -/

/-- None of the delimiters. -/
def Plain (bs : List UInt8) : Prop := ∀ c ∈ ascii "\n\x7b\"#", c ∉ bs

instance : DecidablePred Plain := fun bs => List.decidableBAll (fun c => c ∉ bs) _

section Plain

variable {bs bs' : List UInt8}

theorem Plain.newline (h : Plain bs) : '\n'.toUInt8 ∉ bs := h _ (by decide)

theorem Plain.brace (h : Plain bs) : '\x7b'.toUInt8 ∉ bs := h _ (by decide)

theorem Plain.quote (h : Plain bs) : '\x22'.toUInt8 ∉ bs := h _ (by decide)

theorem Plain.hash (h : Plain bs) : '#'.toUInt8 ∉ bs := h _ (by decide)

theorem Plain.append (h : Plain bs) (h' : Plain bs') : Plain (bs ++ bs') := fun c hc hmem =>
  (List.mem_append.mp hmem).elim (h c hc) (h' c hc)

theorem plain_of_forall {p : UInt8 → Bool} (hp : (ascii "\n\x7b\"#").any p = false)
    (h : ∀ b ∈ bs, p b = true) : Plain bs :=
  fun c hc hmem => List.any_eq_false.mp hp c hc (h c hmem)

theorem ValidLabel.plain (h : ValidLabel bs) : Plain bs := plain_of_forall (by decide) h.chars

theorem plain_decimal (n : ℕ) : Plain (decimal n) :=
  plain_of_forall (p := (Text.IsDigit ·)) (by decide) fun _ hb =>
    decide_eq_true (Text.isDigit_of_mem_decimal hb)

theorem plain_padded (w n : ℕ) : Plain (padded w n) :=
  plain_of_forall (p := (Text.IsDigit ·)) (by decide) fun _ hb =>
    decide_eq_true (Text.isDigit_of_mem_padded hb)

theorem plain_signed (z : ℤ) : Plain (signed z) := by
  unfold Text.signed
  split
  · have hminus : Plain ['-'.toUInt8] := by decide
    exact hminus.append (plain_decimal _)
  · exact plain_decimal _

end Plain

/-- A line of the text and what is read from it. -/
def Reads (line : List UInt8) (ss : List Sample) : Prop :=
  ∃ content, line = content ++ ['\n'.toUInt8] ∧ '\n'.toUInt8 ∉ content ∧
    parseLine content = some ss

theorem parse_append {line text : List UInt8} {ss ss' : List Sample} (h : Reads line ss)
    (h' : parse text = some ss') : parse (line ++ text) = some (ss ++ ss') := by
  obtain ⟨content, rfl, hline, hparse⟩ := h
  have hsplit : (content ++ ['\n'.toUInt8] ++ text).splitOn '\n'.toUInt8 =
      content :: text.splitOn '\n'.toUInt8 := by
    rw [List.append_assoc]
    exact List.splitOn_append_cons_self_of_not_mem hline text
  obtain ⟨l, ls, hls⟩ := List.exists_cons_of_ne_nil (List.splitOn_ne_nil '\n'.toUInt8 text)
  rw [parse, hls] at h'
  rw [parse, hsplit, hls, parseLines, hparse, h']
  · rfl
  · simp

/-- Several lines, and all that is read from them. -/
inductive ReadsAll : List (List UInt8) → List Sample → Prop where
  | nil : ReadsAll [] []
  | cons {line : List UInt8} {lines : List (List UInt8)} {ss ss' : List Sample}
      (h : Reads line ss) (h' : ReadsAll lines ss') : ReadsAll (line :: lines) (ss ++ ss')

theorem ReadsAll.append {ls ls' : List (List UInt8)} {ss ss' : List Sample} (h : ReadsAll ls ss)
    (h' : ReadsAll ls' ss') : ReadsAll (ls ++ ls') (ss ++ ss') := by
  induction h with
  | nil => exact h'
  | cons hfirst _ ih =>
      rw [List.append_assoc]
      exact .cons hfirst ih

theorem ReadsAll.map {ι : Type*} {line : ι → List UInt8} {sample : ι → Sample}
    (h : ∀ i, Reads (line i) [sample i]) (is : List ι) :
    ReadsAll (is.map line) (is.map sample) := by
  induction is with
  | nil => exact .nil
  | cons i is ih => exact .cons (h i) ih

theorem ReadsAll.parse {ls : List (List UInt8)} {ss : List Sample} (h : ReadsAll ls ss) :
    Metrics.parse ls.flatten = some ss := by
  induction h with
  | nil => rfl
  | cons hfirst _ ih => exact parse_append hfirst ih

section Lines

variable {name help kind model le value : List UInt8}

theorem reads_comment {text : List UInt8} (h : Plain text) :
    Reads ('#'.toUInt8 :: (text ++ ['\n'.toUInt8])) [] := by
  refine ⟨'#'.toUInt8 :: text, rfl, ?_, if_pos rfl⟩
  rintro (_ | ⟨_, hmem⟩)
  exact h.newline hmem

theorem reads_helpLine (hname : Plain name) (hhelp : Plain help) :
    Reads (helpLine name help) [] := by
  have htext : Plain (ascii " HELP " ++ name ++ ascii " " ++ help) :=
    (((show Plain (ascii " HELP ") by decide).append hname).append (by decide)).append hhelp
  exact reads_comment htext

theorem reads_typeLine (hname : Plain name) (hkind : Plain kind) :
    Reads (typeLine name kind) [] := by
  have htext : Plain (ascii " TYPE " ++ name ++ ascii " " ++ kind) :=
    (((show Plain (ascii " TYPE ") by decide).append hname).append (by decide)).append hkind
  exact reads_comment htext

/-- A name is not the start of a comment. -/
theorem parseLine_of_plain (hname : Plain name) (rest : List UInt8) :
    parseLine (name ++ '\x7b'.toUInt8 :: rest) =
      (parseSample (name ++ '\x7b'.toUInt8 :: rest)).map ([·]) := by
  apply if_neg
  cases name with
  | nil => exact fun hhead => absurd (Option.some.inj hhead) (by decide)
  | cons c name =>
      intro hhead
      cases hhead
      exact hname.hash List.mem_cons_self

theorem dropPrefix?_append (p rest : List UInt8) : (p ++ rest).dropPrefix? p = some rest :=
  List.dropPrefix?_append_of_beq rest (beq_self_eq_true p)

theorem reads_sampleLine (hname : Plain name) (hmodel : Plain model)
    (hvalue : '\n'.toUInt8 ∉ value) :
    Reads (sampleLine name model value) [⟨name, model, none, value⟩] := by
  refine ⟨name ++ '\x7b'.toUInt8 :: (ascii "model=\"" ++ (model ++ '\x22'.toUInt8 ::
    (ascii "\x7d " ++ value))), ?_, ?_, ?_⟩
  · simp only [sampleLine, List.append_assoc, List.cons_append]
    rfl
  · simp only [List.mem_append, List.mem_cons, not_or]
    exact ⟨hname.newline, by decide, by decide, hmodel.newline, by decide, by decide, hvalue⟩
  · have hnone : (ascii "\x7d " ++ value).dropPrefix? (ascii ",le=\"") = none := rfl
    rw [parseLine_of_plain hname, parseSample, Text.cut_append hname.brace]
    simp only [Option.bind_eq_bind, Option.bind_some, dropPrefix?_append,
      Text.cut_append hmodel.quote, hnone, Option.map_some]

theorem reads_bucketLine (hname : Plain name) (hmodel : Plain model) (hle : Plain le)
    (hvalue : '\n'.toUInt8 ∉ value) :
    Reads (bucketLine name model le value) [⟨name ++ ascii "_bucket", model, some le, value⟩] := by
  have hbucket : Plain (name ++ ascii "_bucket") := hname.append (by decide)
  refine ⟨(name ++ ascii "_bucket") ++ '\x7b'.toUInt8 :: (ascii "model=\"" ++ (model ++
    '\x22'.toUInt8 :: (ascii ",le=\"" ++ (le ++ '\x22'.toUInt8 :: (ascii "\x7d " ++ value))))),
    ?_, ?_, ?_⟩
  · simp only [bucketLine, List.append_assoc, List.cons_append]
    rfl
  · simp only [List.mem_append, List.mem_cons, not_or]
    exact ⟨⟨hname.newline, by decide⟩, by decide, by decide, hmodel.newline, by decide, by decide,
      hle.newline, by decide, by decide, hvalue⟩
  · rw [parseLine_of_plain hbucket, parseSample, Text.cut_append hbucket.brace]
    simp only [Option.bind_eq_bind, Option.bind_some, dropPrefix?_append,
      Text.cut_append hmodel.quote, Text.cut_append hle.quote, Option.map_some]

theorem readsAll_counterLines (hname : Plain name) (hhelp : Plain help) (hmodel : Plain model)
    (n : UInt64) : ReadsAll (counterLines name help model n)
      [⟨name, model, none, decimal n.toNat⟩] :=
  .cons (reads_helpLine hname hhelp) (.cons (reads_typeLine hname (by decide))
    (.cons (reads_sampleLine hname hmodel (plain_decimal _).newline) .nil))

theorem readsAll_gaugeLines (hname : Plain name) (hhelp : Plain help) (hmodel : Plain model)
    (n : Int64) : ReadsAll (gaugeLines name help model n)
      [⟨name, model, none, signed n.toInt⟩] :=
  .cons (reads_helpLine hname hhelp) (.cons (reads_typeLine hname (by decide))
    (.cons (reads_sampleLine hname hmodel (plain_signed _).newline) .nil))

end Lines

/-! ## The samples -/

def bucketName : List UInt8 := latencyName ++ ascii "_bucket"

def sumName : List UInt8 := latencyName ++ ascii "_sum"

def countName : List UInt8 := latencyName ++ ascii "_count"

/-- The bounds in the order of the buckets. -/
def bucketLabel (i : Fin (bucketCount + 1)) : List UInt8 := (kBucketLe ++ [ascii "+Inf"]).getD i []

def bucketSample (g : Registry) (i : Fin (bucketCount + 1)) : Sample :=
  ⟨bucketName, g.modelLabel, some (bucketLabel i), decimal (cumulative g (i + 1)).toNat⟩

/-- What the text says about a registry. -/
def samples (g : Registry) : List Sample :=
  [⟨acceptedName, g.modelLabel, none, decimal g.accepted.toNat⟩,
    ⟨refusedName, g.modelLabel, none, decimal g.refused.toNat⟩,
    ⟨activeName, g.modelLabel, none, signed g.active.toInt⟩,
    ⟨queueDepthName, g.modelLabel, none, signed g.queueDepth.toInt64.toInt⟩,
    ⟨workersBusyName, g.modelLabel, none, signed g.workersBusy.toInt⟩] ++
    (List.finRange (bucketCount + 1)).map (bucketSample g) ++
    [⟨sumName, g.modelLabel, none, seconds g.latencySumNs⟩,
      ⟨countName, g.modelLabel, none, decimal (cumulative g (bucketCount + 1)).toNat⟩]

theorem plain_bucketLabel (i : Fin (bucketCount + 1)) : Plain (bucketLabel i) := by
  revert i
  decide

theorem plain_seconds (ns : UInt64) : Plain (seconds ns) := by
  have hpoint : Plain ['.'.toUInt8] := by decide
  exact (plain_decimal _).append (hpoint.append (plain_padded _ _))

theorem bucketLabel_castSucc (i : Fin bucketCount) :
    bucketLabel i.castSucc = kBucketLe.getD i [] := by
  revert i
  decide

/-- The bucket lines, in the order of the labels. -/
theorem bucketLines_eq (g : Registry) :
    (List.finRange bucketCount).map (finiteLine g) ++
      [bucketLine latencyName g.modelLabel (ascii "+Inf")
        (decimal (cumulative g (bucketCount + 1)).toNat)] =
      (List.finRange (bucketCount + 1)).map fun i => bucketLine latencyName g.modelLabel
        (bucketLabel i) (decimal (cumulative g (i + 1)).toNat) := by
  rw [List.finRange_succ_last, List.map_append, List.map_map]
  refine congrArg₂ (· ++ ·) (List.map_congr_left fun i _ => ?_) rfl
  rw [finiteLine, ← bucketLabel_castSucc]
  rfl

theorem readsAll_latencyLines (g : Registry) (hmodel : Plain g.modelLabel) :
    ReadsAll (latencyLines g) ((List.finRange (bucketCount + 1)).map (bucketSample g) ++
      [⟨sumName, g.modelLabel, none, seconds g.latencySumNs⟩,
        ⟨countName, g.modelLabel, none, decimal (cumulative g (bucketCount + 1)).toNat⟩]) := by
  have hname : Plain latencyName := by decide
  have hhead : ReadsAll [helpLine latencyName latencyHelp,
      typeLine latencyName (ascii "histogram")] [] :=
    .cons (reads_helpLine hname (by decide)) (.cons (reads_typeLine hname (by decide)) .nil)
  have hbuckets : ReadsAll ((List.finRange (bucketCount + 1)).map fun i => bucketLine latencyName
      g.modelLabel (bucketLabel i) (decimal (cumulative g (i + 1)).toNat))
      ((List.finRange (bucketCount + 1)).map (bucketSample g)) :=
    .map (fun i => reads_bucketLine hname hmodel (plain_bucketLabel i) (plain_decimal _).newline) _
  have hlast : ReadsAll [sampleLine sumName g.modelLabel (seconds g.latencySumNs),
      sampleLine countName g.modelLabel (decimal (cumulative g (bucketCount + 1)).toNat)]
      [⟨sumName, g.modelLabel, none, seconds g.latencySumNs⟩,
        ⟨countName, g.modelLabel, none, decimal (cumulative g (bucketCount + 1)).toNat⟩] :=
    .cons (reads_sampleLine (by decide) hmodel (plain_seconds _).newline)
      (.cons (reads_sampleLine (by decide) hmodel (plain_decimal _).newline) .nil)
  have hall := hhead.append (hbuckets.append hlast)
  rw [← bucketLines_eq] at hall
  simpa only [latencyLines, sumName, countName, List.append_assoc, List.cons_append,
    List.nil_append] using hall

theorem parse_exposition (g : Registry) (hmodel : Plain g.modelLabel) :
    parse (exposition g) = some (samples g) := by
  have haccepted : ReadsAll (counterLines acceptedName acceptedHelp g.modelLabel g.accepted) _ :=
    readsAll_counterLines (by decide +kernel) (by decide +kernel) hmodel _
  have hrefused : ReadsAll (counterLines refusedName refusedHelp g.modelLabel g.refused) _ :=
    readsAll_counterLines (by decide +kernel) (by decide +kernel) hmodel _
  have hactive : ReadsAll (gaugeLines activeName activeHelp g.modelLabel g.active) _ :=
    readsAll_gaugeLines (by decide +kernel) (by decide +kernel) hmodel _
  have hdepth : ReadsAll (gaugeLines queueDepthName queueDepthHelp g.modelLabel
      g.queueDepth.toInt64) _ :=
    readsAll_gaugeLines (by decide +kernel) (by decide +kernel) hmodel _
  have hbusy : ReadsAll (gaugeLines workersBusyName workersBusyHelp g.modelLabel
      g.workersBusy) _ :=
    readsAll_gaugeLines (by decide +kernel) (by decide +kernel) hmodel _
  have hall := ((((haccepted.append hrefused).append hactive).append hdepth).append hbusy).append
    (readsAll_latencyLines g hmodel)
  rw [exposition, expositionLines, hall.parse]
  simp only [samples, List.cons_append, List.nil_append]

/-! ## The values -/

/-- A sample is found by its name and its bound. -/
def Sample.key (s : Sample) : List UInt8 × Option (List UInt8) := (s.name, s.le)

def find (ss : List Sample) (key : List UInt8 × Option (List UInt8)) : Option (List UInt8) :=
  (ss.find? fun s => s.key = key).map (·.value)

/-- The numbers in a text. The buckets hold what each one adds to the one
before, and the sum is in nanoseconds. -/
structure Snapshot where
  accepted : ℕ
  refused : ℕ
  active : ℤ
  queueDepth : ℤ
  workersBusy : ℤ
  buckets : List ℕ
  sumNs : ℚ

def differences (xs : List ℕ) : List ℕ := List.zipWith (· - ·) xs (0 :: xs)

def decode (ss : List Sample) : Option Snapshot := do
  let accepted ← (find ss (acceptedName, none)).bind parseNat
  let refused ← (find ss (refusedName, none)).bind parseNat
  let active ← (find ss (activeName, none)).bind parseInt
  let queueDepth ← (find ss (queueDepthName, none)).bind parseInt
  let workersBusy ← (find ss (workersBusyName, none)).bind parseInt
  let cumulative ← (List.finRange (bucketCount + 1)).mapM fun i =>
    (find ss (bucketName, some (bucketLabel i))).bind parseNat
  let sum ← (find ss (sumName, none)).bind parseFixed
  some ⟨accepted, refused, active, queueDepth, workersBusy, differences cumulative, sum * 10 ^ 9⟩

theorem find_of_mem {ss : List Sample} (hnodup : (ss.map Sample.key).Nodup) {s : Sample}
    (hs : s ∈ ss) : find ss s.key = some s.value := by
  have hsome : (ss.find? fun s' => s'.key = s.key).isSome :=
    List.find?_isSome.mpr ⟨s, hs, by simp⟩
  obtain ⟨s', hs'⟩ := Option.isSome_iff_exists.mp hsome
  have hkey : s'.key = s.key := by simpa using List.find?_some hs'
  have heq : s' = s := List.inj_on_of_nodup_map hnodup (List.mem_of_find?_eq_some hs') hs hkey
  rw [find, hs', heq]
  rfl

theorem keys_nodup (g : Registry) : ((samples g).map Sample.key).Nodup := by
  have hkeys : (samples g).map Sample.key =
      [(acceptedName, none), (refusedName, none), (activeName, none), (queueDepthName, none),
        (workersBusyName, none)] ++
      (List.finRange (bucketCount + 1)).map (fun i => (bucketName, some (bucketLabel i))) ++
      [(sumName, none), (countName, none)] := by
    simp only [samples, List.map_append, List.map_map]
    rfl
  rw [hkeys]
  decide +kernel

theorem mapM_eq_some {α β : Type} {f : α → Option β} {v : α → β} {xs : List α}
    (h : ∀ x ∈ xs, f x = some (v x)) : xs.mapM f = some (xs.map v) := by
  induction xs with
  | nil => rfl
  | cons x xs ih =>
      have hx := h x List.mem_cons_self
      have hxs := ih fun y hy => h y (List.mem_cons_of_mem x hy)
      simp [List.mapM_cons, hx, hxs]

/-- Differences undo sums. -/
theorem differences_countBelow (c : Fin (bucketCount + 1) → ℕ) :
    differences ((List.finRange (bucketCount + 1)).map fun i => countBelow c (i.val + 1)) =
      (List.finRange (bucketCount + 1)).map c := by
  apply List.ext_getElem
  · simp [differences]
  · intro i hi hi'
    have hlt : i < bucketCount + 1 := by simpa using hi'
    have hsucc := countBelow_succ c hlt
    cases i with
    | zero =>
        have hzero : countBelow c 0 = 0 := by simp [countBelow]
        simpa [differences, hzero] using hsucc
    | succ i =>
        have hsub : countBelow c (i + 1 + 1) - countBelow c (i + 1) = c ⟨i + 1, hlt⟩ := by omega
        simpa [differences] using hsub

theorem toInt_toInt64 {n : UInt64} (h : n.toNat < 2 ^ 63) : n.toInt64.toInt = n.toNat := by
  have hlt : 2 * n.toBitVec.toNat < 2 ^ 64 := by
    change 2 * n.toNat < 2 ^ 64
    omega
  exact BitVec.toInt_eq_toNat_of_lt hlt

theorem parseFixed_seconds (ns : UInt64) :
    parseFixed (seconds ns) = some ((ns.toNat : ℚ) / 10 ^ 9) := by
  have hlt : ns.toNat % 1000000000 < 10 ^ 9 := Nat.mod_lt _ (by decide)
  have hsplit : (ns.toNat : ℚ) = 1000000000 * (ns.toNat / 1000000000 : ℕ) +
      (ns.toNat % 1000000000 : ℕ) := by
    exact_mod_cast (Nat.div_add_mod ns.toNat 1000000000).symm
  rw [seconds, Text.parseFixed_padded _ (by decide) hlt]
  congr 1
  rw [hsplit]
  ring

theorem decode_samples (g : Registry) (hdepth : g.queueDepth.toNat < 2 ^ 63)
    (htotal : ∑ i, (g.latencyCount i).toNat < 2 ^ 64) :
    decode (samples g) = some ⟨g.accepted.toNat, g.refused.toNat, g.active.toInt,
      g.queueDepth.toNat, g.workersBusy.toInt,
      (List.finRange (bucketCount + 1)).map fun i => (g.latencyCount i).toNat,
      g.latencySumNs.toNat⟩ := by
  have hfind : ∀ s ∈ samples g, find (samples g) s.key = some s.value :=
    fun s hs => find_of_mem (keys_nodup g) hs
  have haccepted := hfind ⟨acceptedName, g.modelLabel, none, decimal g.accepted.toNat⟩
    (by simp [samples])
  have hrefused := hfind ⟨refusedName, g.modelLabel, none, decimal g.refused.toNat⟩
    (by simp [samples])
  have hactive := hfind ⟨activeName, g.modelLabel, none, signed g.active.toInt⟩
    (by simp [samples])
  have hqueue := hfind ⟨queueDepthName, g.modelLabel, none, signed g.queueDepth.toInt64.toInt⟩
    (by simp [samples])
  have hbusy := hfind ⟨workersBusyName, g.modelLabel, none, signed g.workersBusy.toInt⟩
    (by simp [samples])
  have hsum := hfind ⟨sumName, g.modelLabel, none, seconds g.latencySumNs⟩ (by simp [samples])
  have hbuckets : ((List.finRange (bucketCount + 1)).mapM fun i =>
      (find (samples g) (bucketName, some (bucketLabel i))).bind parseNat) =
      some ((List.finRange (bucketCount + 1)).map fun i =>
        countBelow (fun i => (g.latencyCount i).toNat) (i.val + 1)) := by
    apply mapM_eq_some
    intro i _
    have hbucket := hfind (bucketSample g i) (by simp [samples])
    change find (samples g) (bucketName, some (bucketLabel i)) = _ at hbucket
    rw [hbucket, Option.bind_some, bucketSample, Text.parseNat_decimal,
      toNat_cumulative g htotal i.isLt]
  simp only [Sample.key] at haccepted hrefused hactive hqueue hbusy hsum
  simp only [decode, haccepted, hrefused, hactive, hqueue, hbusy, hbuckets, hsum,
    Option.bind_eq_bind, Option.bind_some, Text.parseNat_decimal, Text.parseInt_signed,
    parseFixed_seconds, differences_countBelow, toInt_toInt64 hdepth]
  congr 2
  ring

theorem model_of_mem_samples {g : Registry} {s : Sample} (hs : s ∈ samples g) :
    s.model = g.modelLabel := by
  simp only [samples, List.mem_append, List.mem_cons, List.not_mem_nil, or_false,
    List.mem_map] at hs
  rcases hs with ((rfl | rfl | rfl | rfl | rfl) | ⟨i, _, rfl⟩) | rfl | rfl
  all_goals rfl

/-- The text determines the registry: whatever string the label was made from,
the reader accepts the text, every sample has that label, and the numbers are
those of the registry. -/
theorem exposition_roundtrip (g₀ g : Registry) (model : Option (List UInt8)) {cap : ℕ}
    (out : List.Vector UInt8 cap) (hmodel : g.model = (metricsInit g₀ model).model)
    (hdepth : g.queueDepth.toNat < 2 ^ 63)
    (htotal : ∑ i, (g.latencyCount i).toNat < 2 ^ 64)
    (hcap : (metricsRender g (some out)).2 < cap) :
    ValidLabel (label model) ∧ ∃ buf len ss, metricsRender g (some out) = (some buf, len) ∧
      parse (Buffer.slice buf 0 len) = some ss ∧ (∀ s ∈ ss, s.model = label model) ∧
      decode ss = some ⟨g.accepted.toNat, g.refused.toNat, g.active.toInt, g.queueDepth.toNat,
        g.workersBusy.toInt, (List.finRange (bucketCount + 1)).map fun i =>
          (g.latencyCount i).toNat, g.latencySumNs.toNat⟩ := by
  have hlabel : g.modelLabel = label model := by
    rw [← modelLabel_metricsInit g₀ model, Registry.modelLabel, hmodel]
    rfl
  have hvalid := validLabel_label model
  rw [metricsRender_len] at hcap
  obtain ⟨buf, hrender, hslice⟩ := metricsRender_full g out hcap
  refine ⟨hvalid, buf, _, samples g, hrender, ?_, ?_, decode_samples g hdepth htotal⟩
  · rw [hslice]
    exact parse_exposition g (hlabel ▸ hvalid.plain)
  · intro s hs
    rw [model_of_mem_samples hs, hlabel]

/-- A registry with a negative gauge, after a `metrics_init` with a string that is
not a label. -/
def oddRegistry (g : Registry) : Registry :=
  { metricsInit g (some (ascii "thread pool")) with
    accepted := 7
    refused := 1
    active := -5
    workersBusy := 2
    queueDepth := 64
    latencyCount := fun i => if i = 3 then 9 else 0
    latencySumNs := 1000000020 }

def zeroRegistry : Registry := ⟨List.Vector.replicate modelMax 0, 0, 0, 0, 0, 0, fun _ => 0, 0⟩

theorem exposition_roundtrip_oddRegistry :
    ∃ buf len ss, metricsRender (oddRegistry zeroRegistry) (some (List.Vector.replicate
        ((exposition (oddRegistry zeroRegistry)).length + 1) 0)) = (some buf, len) ∧
      parse (Buffer.slice buf 0 len) = some ss ∧
      (∀ s ∈ ss, s.model = label (some (ascii "thread pool"))) ∧
      decode ss = some ⟨7, 1, -5, 64, 2, [0, 0, 0, 9, 0, 0, 0, 0, 0, 0, 0], 1000000020⟩ := by
  refine (exposition_roundtrip zeroRegistry (oddRegistry zeroRegistry)
    (some (ascii "thread pool")) _ rfl (by decide) (by decide) ?_).2
  rw [metricsRender_len]
  exact Nat.lt_add_one _

end ConcurrentServers.Metrics
