import Mathlib.Algebra.Order.Archimedean.Basic
import Mathlib.Data.Rat.Floor
import Mathlib.Order.Monotone.Basic
/-!
# The latencies of a load test (`loadtest/histogram.go`)

Latencies are counted in buckets whose bounds grow by one per cent, so that a
quantile is known up to that and up to one tick.  Logarithms and powers of
floating-point numbers are parameters.
-/

namespace Gostman.LoadTest

/-- `time.Hour` and `time.Microsecond`, in nanoseconds. -/
def LongestTrackedLatency : Nat := 3600 * 10 ^ 9
def shortestTick : Nat := 1000

def DistributionBins : Nat := 12

structure Library where
  /-- `int(math.Ceil(math.Log(float64(ticks)) / growthLog))` -/
  ceilLog : Nat → Nat
  /-- `time.Duration(math.Pow(latencyGrowth, float64(bucket)) * float64(shortestTick))` -/
  upperBound : Nat → Nat
  /-- `int64(math.Ceil(fraction*float64(total)))`, for a fraction in per cent. -/
  rank : Nat → Nat → Nat

def longestTicks : Nat :=
  LongestTrackedLatency / shortestTick

/-- What these functions are relied on for, where they are called. -/
structure Library.Sound (lib : Library) : Prop where
  ceilLog_mono : ∀ first second, 0 < first → first ≤ second → second ≤ longestTicks →
    lib.ceilLog first ≤ lib.ceilLog second
  upperBound_mono : ∀ first second, first ≤ second → second ≤ lib.ceilLog longestTicks →
    lib.upperBound first ≤ lib.upperBound second
  le_upperBound : ∀ ticks, 0 < ticks → ticks ≤ longestTicks → ticks * shortestTick ≤ lib.upperBound (lib.ceilLog ticks)
  rank_mono : ∀ first second, first ≤ second → second ≤ 100 → ∀ total, lib.rank first total ≤ lib.rank second total
  rank_le : ∀ percent ≤ 100, ∀ total, lib.rank percent total ≤ total

theorem exists_growth (ticks : Nat) : ∃ bucket, ticks * 100 ^ bucket ≤ 101 ^ bucket := by
  have hgrowth : (1 : ℚ) < 101 / 100 := by norm_num
  obtain ⟨bucket, hbucket⟩ := pow_unbounded_of_one_lt (ticks : ℚ) hgrowth
  refine ⟨bucket, ?_⟩
  rw [div_pow, lt_div_iff₀ (by positivity)] at hbucket
  exact_mod_cast hbucket.le

def exactly : Library where
  ceilLog ticks := Nat.find (exists_growth ticks)
  upperBound bucket := shortestTick * 101 ^ bucket / 100 ^ bucket
  rank percent total := (percent * total + 99) / 100

theorem exactly_sound : exactly.Sound where
  ceilLog_mono first second _ h _ :=
    Nat.find_mono fun _ hbucket => (Nat.mul_le_mul_right _ h).trans hbucket
  upperBound_mono first second h _ := by
    refine monotone_nat_of_le_succ (fun bucket => ?_) h
    change shortestTick * 101 ^ bucket / 100 ^ bucket ≤ shortestTick * 101 ^ (bucket + 1) / 100 ^ (bucket + 1)
    rw [← Nat.mul_div_mul_right _ _ (Nat.zero_lt_succ 99), ← Nat.pow_succ, Nat.pow_succ 101, ← Nat.mul_assoc]
    exact Nat.div_le_div_right (Nat.mul_le_mul_left _ (Nat.le_succ 100))
  le_upperBound ticks _ _ := by
    have hspec := Nat.find_spec (exists_growth ticks)
    change ticks * shortestTick ≤ shortestTick * 101 ^ _ / 100 ^ _
    rw [Nat.le_div_iff_mul_le (Nat.pow_pos (Nat.zero_lt_succ 99)), Nat.mul_comm ticks, Nat.mul_assoc]
    exact Nat.mul_le_mul_left _ hspec
  rank_mono first second h _ total := by
    change (first * total + 99) / 100 ≤ (second * total + 99) / 100
    exact Nat.div_le_div_right (Nat.add_le_add_right (Nat.mul_le_mul_right _ h) _)
  rank_le percent h total := by
    change (percent * total + 99) / 100 ≤ total
    have hmul := Nat.mul_le_mul_right total h
    omega

/-! ## Recording -/

structure Histogram where
  counts : List Nat
  total : Nat
  sum : Nat
  lowest : Nat
  most : Nat

variable (lib : Library)

def bucketOf (latency : Nat) : Nat :=
  lib.ceilLog (max latency shortestTick / shortestTick)

def newLatencyHistogram : Histogram :=
  ⟨List.replicate (bucketOf lib LongestTrackedLatency + 1) 0, 0, 0, 0, 0⟩

namespace Histogram

def record (h : Histogram) (latency : Nat) : Histogram :=
  let bucket := min (bucketOf lib latency) (h.counts.length - 1)
  { counts := h.counts.modify bucket (· + 1)
    total := h.total + 1
    sum := h.sum + latency
    lowest := if h.total + 1 = 1 ∨ latency < h.lowest then latency else h.lowest
    most := max h.most latency }

def clamp (h : Histogram) (value : Nat) : Nat :=
  min (max value h.lowest) h.most

/-- The loop of `quantile`, from a bucket on. -/
def seek (rank : Nat) : Nat → Nat → List Nat → Option Nat
  | _, _, [] => none
  | bucket, seen, count :: rest =>
      if seen + count ≥ rank then some bucket else seek rank (bucket + 1) (seen + count) rest

def quantile (h : Histogram) (percent : Nat) : Nat :=
  if h.total = 0 then 0
  else
    match seek (max (lib.rank percent h.total) 1) 0 0 h.counts with
    | some bucket => h.clamp (lib.upperBound bucket)
    | none => h.most

structure Bin where
  start : Nat
  stop : Nat
  count : Nat

def width (h : Histogram) (count : Nat) : Nat :=
  let edge := max (h.quantile lib 99) (h.lowest + 1)
  (edge - h.lowest + count - 1) / count

/-- The second loop of `bins`, from a bucket on. -/
def fill (h : Histogram) (width count : Nat) : Nat → List Nat → List Bin → List Bin
  | _, [], bins => bins
  | bucket, hits :: rest, bins =>
      if hits = 0 then fill h width count (bucket + 1) rest bins
      else
        let position := (h.clamp (lib.upperBound bucket) - h.lowest) / width
        fill h width count (bucket + 1) rest
          (bins.modify (min position (count - 1)) fun bin => { bin with count := bin.count + hits })

def bins (h : Histogram) (count : Nat) : List Bin :=
  if h.total = 0 then []
  else
    let width := h.width lib count
    let bins := (List.range count).map fun index => ⟨h.lowest + width * index, h.lowest + width * (index + 1), 0⟩
    fill lib h width count 0 h.counts bins

end Histogram

def histogramOf (latencies : List Nat) : Histogram :=
  latencies.foldl (fun h latency => h.record lib latency) (newLatencyHistogram lib)

/-! ## What is counted -/

variable {lib}

def slot (lib : Library) (latency : Nat) : Nat :=
  min (bucketOf lib latency) (bucketOf lib LongestTrackedLatency)

structure Counts (lib : Library) (latencies : List Nat) (h : Histogram) : Prop where
  length : h.counts.length = bucketOf lib LongestTrackedLatency + 1
  counts : ∀ bucket ≤ bucketOf lib LongestTrackedLatency,
    h.counts[bucket]? = some (latencies.countP fun latency => slot lib latency = bucket)
  total : h.total = latencies.length
  lowest : latencies ≠ [] → h.lowest ∈ latencies ∧ ∀ latency ∈ latencies, h.lowest ≤ latency
  most : if latencies = [] then h.most = 0 else h.most ∈ latencies
  le_most : ∀ latency ∈ latencies, latency ≤ h.most

theorem Counts.record {latencies : List Nat} {h : Histogram} (hcounts : Counts lib latencies h) (latency : Nat) :
    Counts lib (latencies ++ [latency]) (h.record lib latency) := by
  have hbucket : min (bucketOf lib latency) (h.counts.length - 1) = slot lib latency := by
    rw [hcounts.length]
    rfl
  refine ⟨?_, ?_, ?_, ?_, ?_, ?_⟩
  · exact (List.length_modify _ _ _).trans hcounts.length
  · intro bucket hle
    change (h.counts.modify (min (bucketOf lib latency) (h.counts.length - 1)) (· + 1))[bucket]? = _
    rw [hbucket, List.getElem?_modify, hcounts.counts bucket hle, List.countP_append, List.countP_singleton]
    by_cases hslot : slot lib latency = bucket
    · simp [hslot]
    · simp [hslot]
  · rw [List.length_append]
    exact congrArg (· + 1) hcounts.total
  · intro _
    change (if h.total + 1 = 1 ∨ latency < h.lowest then latency else h.lowest) ∈ _ ∧
      ∀ other ∈ _, (if h.total + 1 = 1 ∨ latency < h.lowest then latency else h.lowest) ≤ other
    rw [hcounts.total]
    by_cases hempty : latencies = []
    · subst hempty
      simp
    · obtain ⟨hmem, hle⟩ := hcounts.lowest hempty
      have hlength : ¬ latencies.length + 1 = 1 := by
        rw [Nat.add_eq_right, List.length_eq_zero_iff]
        exact hempty
      simp only [or_iff_right hlength]
      split_ifs with hlt
      · refine ⟨List.mem_append_right _ (List.mem_singleton_self _), ?_⟩
        intro other hother
        obtain hother | hother := List.mem_append.1 hother
        · exact hlt.le.trans (hle other hother)
        · exact (List.mem_singleton.1 hother).ge
      · refine ⟨List.mem_append_left _ hmem, ?_⟩
        intro other hother
        obtain hother | hother := List.mem_append.1 hother
        · exact hle other hother
        · rw [List.mem_singleton.1 hother]
          exact Nat.le_of_not_lt hlt
  · have hmost := hcounts.most
    change if latencies ++ [latency] = [] then max h.most latency = 0 else max h.most latency ∈ latencies ++ [latency]
    rw [if_neg (by simp)]
    split_ifs at hmost with hempty
    · rw [hempty, hmost, Nat.zero_max]
      exact List.mem_singleton_self latency
    · rcases le_total h.most latency with hle | hle
      · rw [max_eq_right hle]
        exact List.mem_append_right _ (List.mem_singleton_self _)
      · rw [max_eq_left hle]
        exact List.mem_append_left _ hmost
  · intro other hother
    change other ≤ max h.most latency
    obtain hother | hother := List.mem_append.1 hother
    · exact (hcounts.le_most other hother).trans (le_max_left _ _)
    · exact (List.mem_singleton.1 hother).le.trans (le_max_right _ _)

theorem histogramOf_counts (latencies : List Nat) : Counts lib latencies (histogramOf lib latencies) := by
  have hgo (before after : List Nat) (h : Histogram) (hcounts : Counts lib before h) :
      Counts lib (before ++ after) (after.foldl (fun h latency => h.record lib latency) h) := by
    induction after generalizing before h with
    | nil => rwa [List.append_nil]
    | cons latency after ih =>
      have hnext := ih (before ++ [latency]) (h.record lib latency) (hcounts.record latency)
      rwa [List.append_assoc] at hnext
  refine hgo [] latencies _ ⟨List.length_replicate, ?_, rfl, fun h => absurd rfl h, rfl, fun _ h => nomatch h⟩
  intro bucket hle
  exact List.getElem?_replicate_of_lt (Nat.lt_succ_of_le hle)

/-! ## Quantiles -/

namespace Histogram

theorem seek_none {rank bucket seen : Nat} {counts : List Nat} (h : seek rank bucket seen counts = none) :
    counts = [] ∨ seen + counts.sum < rank := by
  induction counts generalizing bucket seen with
  | nil => exact .inl rfl
  | cons count rest ih =>
    unfold seek at h
    split_ifs at h with hrank
    rw [List.sum_cons]
    obtain hnil | hlt := ih h
    · rw [hnil, List.sum_nil]
      omega
    · omega

/-- The bucket that is found is where the rank falls. -/
theorem seek_some {rank bucket seen found : Nat} {counts : List Nat} (h : seek rank bucket seen counts = some found)
    (hseen : seen < rank) :
    ∃ index, found = bucket + index ∧ index < counts.length ∧ seen + (counts.take index).sum < rank ∧
      rank ≤ seen + (counts.take (index + 1)).sum := by
  induction counts generalizing bucket seen with
  | nil => cases h
  | cons count rest ih =>
    unfold seek at h
    split_ifs at h with hrank
    · obtain rfl := Option.some.inj h
      refine ⟨0, rfl, Nat.zero_lt_succ _, hseen, ?_⟩
      simpa using hrank
    · obtain ⟨index, hfound, hlt, hbelow, hreached⟩ := ih h (Nat.lt_of_not_le hrank)
      refine ⟨index + 1, by omega, Nat.succ_lt_succ hlt, ?_, ?_⟩
      · rw [List.take_succ_cons, List.sum_cons]
        omega
      · rw [List.take_succ_cons, List.sum_cons]
        omega

end Histogram

theorem countP_lt_succ (latencies : List Nat) (place : Nat → Nat) (limit : Nat) :
    (latencies.countP fun latency => place latency < limit + 1) =
      (latencies.countP fun latency => place latency < limit) + latencies.countP fun latency => place latency = limit := by
  induction latencies with
  | nil => rfl
  | cons latency rest ih =>
    simp only [List.countP_cons, decide_eq_true_eq]
    split_ifs <;> omega

theorem Counts.take_sum {latencies : List Nat} {h : Histogram} (hcounts : Counts lib latencies h) {bucket : Nat}
    (hle : bucket ≤ bucketOf lib LongestTrackedLatency + 1) :
    (h.counts.take bucket).sum = latencies.countP fun latency => slot lib latency < bucket := by
  induction bucket with
  | zero => simp
  | succ bucket ih =>
    have hget := hcounts.counts bucket (Nat.le_of_succ_le_succ hle)
    rw [List.take_add_one, hget, List.sum_append, ih (Nat.le_of_succ_le hle)]
    change _ + (_ + 0) = _
    rw [Nat.add_zero]
    exact (countP_lt_succ latencies (slot lib) bucket).symm

theorem Counts.quantile {latencies : List Nat} {h : Histogram} (hcounts : Counts lib latencies h) (hne : latencies ≠ [])
    {percent : Nat} (hrank : lib.rank percent latencies.length ≤ latencies.length) :
    ∃ bucket ≤ bucketOf lib LongestTrackedLatency, h.quantile lib percent = h.clamp (lib.upperBound bucket) ∧
      (latencies.countP fun latency => slot lib latency < bucket) < max (lib.rank percent latencies.length) 1 ∧
      max (lib.rank percent latencies.length) 1 ≤ latencies.countP fun latency => slot lib latency ≤ bucket := by
  have hlength : 0 < latencies.length := List.length_pos_iff.2 hne
  have hquantile : h.quantile lib percent =
      match Histogram.seek (max (lib.rank percent latencies.length) 1) 0 0 h.counts with
      | some bucket => h.clamp (lib.upperBound bucket)
      | none => h.most := by
    rw [Histogram.quantile, hcounts.total, if_neg hlength.ne']
  rw [hquantile]
  cases hseek : Histogram.seek (max (lib.rank percent latencies.length) 1) 0 0 h.counts with
  | none =>
    have hsum := hcounts.take_sum (Nat.le_refl _)
    rw [← hcounts.length, List.take_length, hcounts.length, List.countP_eq_length.2] at hsum
    · obtain hnil | hlt := Histogram.seek_none hseek
      · have := hcounts.length
        rw [hnil] at this
        cases this
      · omega
    · intro latency _
      exact decide_eq_true (Nat.lt_succ_of_le (min_le_right _ _))
  | some found =>
    obtain ⟨bucket, hfound, hlt, hbelow, hreached⟩ := Histogram.seek_some hseek (by omega)
    rw [hcounts.length] at hlt
    rw [Nat.zero_add] at hfound hbelow hreached
    rw [hcounts.take_sum hlt.le] at hbelow
    rw [hcounts.take_sum hlt] at hreached
    refine ⟨bucket, Nat.le_of_lt_succ hlt, by rw [hfound], hbelow, ?_⟩
    simpa only [Nat.lt_succ_iff] using hreached

theorem clamp_of_le {h : Histogram} (h' : h.lowest ≤ h.most) (value : Nat) :
    h.lowest ≤ h.clamp value ∧ h.clamp value ≤ h.most :=
  ⟨le_min (le_max_right _ _) h', min_le_right _ _⟩

/-- The quantiles of a report are in order, between the shortest and the longest. -/
theorem quantile_mono (hlib : lib.Sound) {latencies : List Nat} (hne : latencies ≠ []) {first second : Nat}
    (hle : first ≤ second) (hsecond : second ≤ 100) :
    (histogramOf lib latencies).quantile lib first ≤ (histogramOf lib latencies).quantile lib second := by
  have hcounts := (histogramOf_counts latencies : Counts lib _ _)
  obtain ⟨low, -, hlow, hbelow, -⟩ :=
    hcounts.quantile hne (hlib.rank_le first (hle.trans hsecond) latencies.length)
  obtain ⟨high, hhighest, hhigh, -, hreached⟩ := hcounts.quantile hne (hlib.rank_le second hsecond latencies.length)
  have hrank : lib.rank first latencies.length ≤ lib.rank second latencies.length :=
    hlib.rank_mono _ _ hle hsecond latencies.length
  have hbuckets : low ≤ high := by
    by_contra hlt
    have hfewer : (latencies.countP fun latency => slot lib latency ≤ high) ≤
        latencies.countP fun latency => slot lib latency < low := by
      refine List.countP_mono_left fun latency _ hslot => ?_
      have := of_decide_eq_true hslot
      exact decide_eq_true (by omega)
    omega
  rw [hlow, hhigh]
  exact min_le_min_right _ (max_le_max_right _ (hlib.upperBound_mono _ _ hbuckets hhighest))

/-- A quantile stands in the bucket of its rank: fewer latencies lie in the buckets
below it, and at least as many lie under the quantile, up to one tick, or are too long
to be told apart. -/
theorem quantile_spec (hlib : lib.Sound) {latencies : List Nat} (hne : latencies ≠ [])
    {percent : Nat} (hpercent : percent ≤ 100) :
    let value := (histogramOf lib latencies).quantile lib percent
    let rank := max (lib.rank percent latencies.length) 1
    (∃ bucket, value = (histogramOf lib latencies).clamp (lib.upperBound bucket) ∧
        (latencies.countP fun latency => bucketOf lib latency < bucket) < rank) ∧
      rank ≤ (latencies.countP fun latency =>
        latency < value + shortestTick ∨ LongestTrackedLatency < latency) ∧
      (∃ latency ∈ latencies, latency ≤ value) ∧ ∃ latency ∈ latencies, value ≤ latency := by
  have hcounts := (histogramOf_counts latencies : Counts lib _ _)
  obtain ⟨bucket, hle, hvalue, hbelow, hreached⟩ := hcounts.quantile hne (hlib.rank_le percent hpercent latencies.length)
  have hticks (latency : Nat) : 0 < max latency shortestTick / shortestTick :=
    Nat.div_pos (le_max_right _ _) (Nat.zero_lt_succ _)
  obtain ⟨hlowest, hlowest_le⟩ := hcounts.lowest hne
  have hmost := hcounts.most
  rw [if_neg hne] at hmost
  have hbetween := clamp_of_le (hlowest_le _ hmost) (lib.upperBound bucket)
  simp only
  rw [hvalue]
  refine ⟨⟨bucket, rfl, ?_⟩, hreached.trans ?_, ⟨_, hlowest, hbetween.1⟩, ⟨_, hmost, hbetween.2⟩⟩
  · refine lt_of_eq_of_lt ?_ hbelow
    refine List.countP_congr fun latency _ => ?_
    rw [decide_eq_true_eq, decide_eq_true_eq, slot]
    omega
  · refine List.countP_mono_left fun latency hlatency hslot_le => ?_
    refine decide_eq_true (or_iff_not_imp_right.2 fun hlong => ?_)
    have hticks_le : max latency shortestTick / shortestTick ≤ longestTicks :=
      Nat.div_le_div_right (max_le (Nat.le_of_not_lt hlong) (by decide))
    have hslot : slot lib latency = bucketOf lib latency :=
      min_eq_left (hlib.ceilLog_mono _ _ (hticks latency) hticks_le (Nat.le_refl _))
    rw [hslot] at hslot_le
    have hupper : lib.upperBound (bucketOf lib latency) ≤ lib.upperBound bucket :=
      hlib.upperBound_mono _ _ (of_decide_eq_true hslot_le) hle
    have htick := hlib.le_upperBound _ (hticks latency) hticks_le
    have hmod : latency < max latency shortestTick / shortestTick * shortestTick + shortestTick := by
      unfold shortestTick
      omega
    have hlt : latency < lib.upperBound bucket + shortestTick :=
      hmod.trans_le (Nat.add_le_add_right (htick.trans hupper) _)
    have hmost_lt : latency < (histogramOf lib latencies).most + shortestTick :=
      (hcounts.le_most latency hlatency).trans_lt (Nat.lt_add_of_pos_right (Nat.zero_lt_succ _))
    rw [Histogram.clamp, ← Nat.add_min_add_right]
    exact lt_min (hlt.trans_le (Nat.add_le_add_right (le_max_left _ _) _)) hmost_lt

/-- Three latencies, of one and two milliseconds and of more than an hour. -/
theorem three_quantile :
    let latencies := [1000000, 5 * 10 ^ 12, 2000000]
    let value := (histogramOf exactly latencies).quantile exactly 66
    2 ≤ (latencies.countP fun latency => latency < value + shortestTick ∨ LongestTrackedLatency < latency) ∧
      (∃ latency ∈ latencies, latency ≤ value) ∧ ∃ latency ∈ latencies, value ≤ latency := by
  have hspec := (@quantile_spec exactly exactly_sound [1000000, 5 * 10 ^ 12, 2000000] (by simp) 66 (by decide)).2
  have hrank : max (exactly.rank 66 [1000000, 5 * 10 ^ 12, 2000000].length) 1 = 2 := rfl
  rwa [hrank] at hspec

/-! ## The distribution -/

namespace Histogram

def place (lib : Library) (h : Histogram) (width count bucket : Nat) : Nat :=
  min ((h.clamp (lib.upperBound bucket) - h.lowest) / width) (count - 1)

def sheet (h : Histogram) (width count : Nat) (counts : Nat → Nat) : List Bin :=
  (List.range count).map fun index => ⟨h.lowest + width * index, h.lowest + width * (index + 1), counts index⟩

theorem sheet_modify (h : Histogram) (width : Nat) {count index : Nat} (counts : Nat → Nat) (hits : Nat) :
    (sheet h width count counts).modify index (fun bin => { bin with count := bin.count + hits }) =
      sheet h width count fun other => counts other + if index = other then hits else 0 := by
  refine List.ext_getElem? fun other => ?_
  rw [List.getElem?_modify, sheet, sheet, List.getElem?_map, List.getElem?_map]
  obtain hlt | hge := Nat.lt_or_ge other count
  · rw [List.getElem?_range hlt]
    split_ifs with hindex
    · simp [hindex]
    · simp [hindex]
  · rw [List.getElem?_eq_none (by simpa using hge)]
    rfl

end Histogram

theorem countP_split (latencies : List Nat) (place : Nat → Nat) (bucket index : Nat) :
    (latencies.countP fun latency => slot lib latency < bucket + 1 ∧ place (slot lib latency) = index) =
      (latencies.countP fun latency => slot lib latency < bucket ∧ place (slot lib latency) = index) +
        if place bucket = index then latencies.countP fun latency => slot lib latency = bucket else 0 := by
  induction latencies with
  | nil => simp
  | cons latency rest ih =>
    simp only [List.countP_cons, decide_eq_true_eq, ih]
    by_cases hslot : slot lib latency = bucket
    · subst hslot
      split_ifs <;> simp_all
      omega
    · split_ifs <;> simp_all
      all_goals omega

/-- Each bin counts the latencies whose bucket falls in it. -/
theorem Counts.fill {latencies : List Nat} {h : Histogram} (hcounts : Counts lib latencies h) (width count : Nat) :
    ∀ (rest : List Nat) (bucket : Nat), h.counts.drop bucket = rest → bucket + rest.length = h.counts.length →
      Histogram.fill lib h width count bucket rest (h.sheet width count fun index =>
          latencies.countP fun latency => slot lib latency < bucket ∧ h.place lib width count (slot lib latency) = index) =
        h.sheet width count fun index => latencies.countP fun latency => h.place lib width count (slot lib latency) = index := by
  intro rest
  induction rest with
  | nil =>
    intro bucket _ hlength
    unfold Histogram.fill
    congr 1
    funext index
    refine List.countP_congr fun latency _ => ?_
    have hslot : slot lib latency < bucket := by
      rw [List.length_nil, hcounts.length, Nat.add_zero] at hlength
      rw [hlength]
      exact Nat.lt_succ_of_le (min_le_right _ _)
    simp [hslot]
  | cons hits rest ih =>
    intro bucket hdrop hlength
    have hlt : bucket < h.counts.length := by
      rw [List.length_cons] at hlength
      omega
    rw [List.drop_eq_getElem_cons hlt] at hdrop
    obtain ⟨hhits, hrest⟩ := List.cons.inj hdrop
    have hcount := hcounts.counts bucket (Nat.le_of_lt_succ (hlt.trans_eq hcounts.length))
    rw [List.getElem?_eq_getElem hlt, hhits] at hcount
    have hnext := ih (bucket + 1) hrest (by rw [List.length_cons] at hlength; omega)
    simp only [countP_split, ← Option.some.inj hcount] at hnext
    unfold Histogram.fill
    split_ifs with hzero
    · simpa only [hzero, ite_self, Nat.add_zero] using hnext
    · rw [← hnext]
      exact congrArg (Histogram.fill lib h width count (bucket + 1) rest) (Histogram.sheet_modify h width _ hits)

theorem bins_eq {latencies : List Nat} (hne : latencies ≠ []) (count : Nat) :
    let h := histogramOf lib latencies
    h.bins lib count = h.sheet (h.width lib count) count fun index =>
      latencies.countP fun latency => h.place lib (h.width lib count) count (slot lib latency) = index := by
  have hcounts := (histogramOf_counts latencies : Counts lib _ _)
  have htotal : (histogramOf lib latencies).total ≠ 0 := by
    rw [hcounts.total]
    exact (List.length_pos_iff.2 hne).ne'
  have hfill := hcounts.fill ((histogramOf lib latencies).width lib count) count _ 0 List.drop_zero (Nat.zero_add _)
  simp only [Nat.not_lt_zero, false_and, decide_false, List.countP_false] at hfill
  simp only [Histogram.bins, if_neg htotal]
  exact hfill

theorem sum_countP (latencies : List Nat) (place : Nat → Nat) {count : Nat} (h : ∀ latency, place latency < count) :
    ((List.range count).map fun index => latencies.countP fun latency => place latency = index).sum = latencies.length := by
  have hgo (limit : Nat) : ((List.range limit).map fun index => latencies.countP fun latency => place latency = index).sum =
      latencies.countP fun latency => place latency < limit := by
    induction limit with
    | zero => simp
    | succ limit ih =>
      rw [List.range_succ, List.map_append, List.sum_append, ih, countP_lt_succ]
      rfl
  rw [hgo, List.countP_eq_length]
  exact fun latency _ => decide_eq_true (h latency)

/-- The bins of a distribution lie side by side from the shortest latency on, each of
them holds the latencies whose bucket ends in it, the last also what is longer, and
together they hold them all. -/
theorem bins_spec {latencies : List Nat} (hne : latencies ≠ []) {count : Nat} (hcount : 0 < count) :
    let h := histogramOf lib latencies
    let width := h.width lib count
    (h.lowest ∈ latencies ∧ ∀ latency ∈ latencies, h.lowest ≤ latency) ∧
      0 < width ∧ h.quantile lib 99 ≤ h.lowest + width * count ∧ (h.bins lib count).length = count ∧
      ((h.bins lib count).map (·.count)).sum = latencies.length ∧
      ∀ index bin, (h.bins lib count)[index]? = some bin →
        bin.start = h.lowest + width * index ∧ bin.stop = h.lowest + width * (index + 1) ∧
          bin.count = latencies.countP fun latency =>
            bin.start ≤ h.clamp (lib.upperBound (slot lib latency)) ∧
              (h.clamp (lib.upperBound (slot lib latency)) < bin.stop ∨ index + 1 = count) := by
  have hcounts := (histogramOf_counts latencies : Counts lib _ _)
  have hlowest := hcounts.lowest hne
  have hmost := hcounts.most
  rw [if_neg hne] at hmost
  simp only
  rw [bins_eq hne]
  generalize histogramOf lib latencies = h at *
  have hwidth : 0 < h.width lib count := by
    refine Nat.div_pos ?_ hcount
    omega
  have hedge : h.quantile lib 99 - h.lowest ≤ h.width lib count * count := by
    have hdiv := Nat.div_add_mod (max (h.quantile lib 99) (h.lowest + 1) - h.lowest + count - 1) count
    have hmod := Nat.mod_lt (max (h.quantile lib 99) (h.lowest + 1) - h.lowest + count - 1) hcount
    rw [Nat.mul_comm] at hdiv
    simp only [Histogram.width]
    omega
  have hplace (latency : Nat) : h.place lib (h.width lib count) count (slot lib latency) < count := by
    unfold Histogram.place
    omega
  refine ⟨hlowest, hwidth, ?_, ?_, ?_, ?_⟩
  · exact Nat.sub_le_iff_le_add'.1 hedge
  · rw [Histogram.sheet, List.length_map, List.length_range]
  · rw [Histogram.sheet, List.map_map]
    exact sum_countP latencies _ hplace
  · intro index bin hbin
    rw [Histogram.sheet, List.getElem?_map] at hbin
    obtain ⟨position, hposition, rfl⟩ := Option.map_eq_some_iff.1 hbin
    obtain ⟨hlt, rfl⟩ := List.getElem?_eq_some_iff.1 hposition
    rw [List.length_range] at hlt
    rw [List.getElem_range]
    refine ⟨rfl, rfl, List.countP_congr fun latency _ => ?_⟩
    have hclamp := (clamp_of_le (hlowest.2 _ hmost) (lib.upperBound (slot lib latency))).1
    have hstart : index ≤ (h.clamp (lib.upperBound (slot lib latency)) - h.lowest) / h.width lib count ↔
        h.lowest + h.width lib count * index ≤ h.clamp (lib.upperBound (slot lib latency)) := by
      rw [Nat.le_div_iff_mul_le hwidth, Nat.mul_comm]
      omega
    have hstop : (h.clamp (lib.upperBound (slot lib latency)) - h.lowest) / h.width lib count < index + 1 ↔
        h.clamp (lib.upperBound (slot lib latency)) < h.lowest + h.width lib count * (index + 1) := by
      rw [Nat.div_lt_iff_lt_mul hwidth, Nat.mul_comm]
      omega
    rw [decide_eq_true_eq, decide_eq_true_eq, ← hstart, ← hstop, Histogram.place]
    omega

theorem three_bins :
    (((histogramOf exactly [1000000, 9000000, 2000000]).bins exactly DistributionBins).map (·.count)).sum = 3 :=
  (bins_spec (by simp) (by decide)).2.2.2.2.1

end Gostman.LoadTest
