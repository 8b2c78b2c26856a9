/-
  Profiles: what the shards of a query report about their work, and the report made of it.

  A shard hands in one entry for each aggregation that it worked on, with loosely kept counters.
  Only entries of unfold aggregations with something in them count.  The report has the sums of
  all counters, which stop at the ends of the sixty-four bit range, and the counters of every
  shard.
-/
import SeriesQuery.Json.Basic

namespace SeriesQuery

/-- The names of the counters, in the order in which they are written. -/
def counterNames : List String :=
  [ "total_chunks", "total_samples", "total_input_series", "total_output_series",
    "live_chunk_count", "closed_chunk_count", "live_doc_count", "closed_doc_count",
    "live_sample_count", "closed_sample_count" ]

/-- The query name that unfold aggregations report under. -/
def unfoldQueryName : String := "time_series_unfold"

/-- What stands for the stages where there were none. -/
def noStages : String := "fetch_only"

/-- A time in nanoseconds, as far as sixty-four bits go. -/
def toNanos (time : Nat) : UInt64 :=
  UInt64.ofNat (if time < UInt64.size then time else UInt64.size - 1)

/-- One aggregation's report from one shard. -/
structure ProfileEntry where
  queryName : String
  description : String
  nanos : UInt64
  debug : Json.Members

/-- All reports of one shard. -/
structure ShardProfile where
  shard : String
  entries : List ProfileEntry

/-- Counters of one aggregation, or the sums of several. -/
structure ProfileStats where
  description : Option String := none
  stages : Option String := none
  nanos : UInt64 := 0
  /-- One number for each of `counterNames`. -/
  counters : List Int64 := counterNames.map fun _ => 0
  deriving Repr, DecidableEq

namespace ProfileStats

/-- The counter with a name; zero for all other names. -/
def get (s : ProfileStats) (name : String) : Int64 :=
  ((counterNames.zip s.counters).lookup name).getD 0

/-- The number under a key, cut to an integer; zero if there is none. -/
def counter (debug : Json.Members) (name : String) : Int64 :=
  ((debug.get? name).bind Json.truncated?).getD 0

/-- The stages that an entry names. -/
def stagesOf (debug : Json.Members) : String :=
  match debug.get? "stages" with
  | some (.string s) => if s = "" then noStages else s
  | _ => noStages

/-- Whether an entry counts. -/
def counts (e : ProfileEntry) : Bool :=
  e.queryName == unfoldQueryName && !e.debug.isEmpty

/-- The counters of an entry. -/
def ofEntry (e : ProfileEntry) : ProfileStats :=
  { description := some e.description
    stages := some (stagesOf e.debug)
    nanos := e.nanos
    counters := counterNames.map (counter e.debug) }

/-- Two times added, as far as they go. -/
def addNanos (a b : UInt64) : UInt64 := toNanos (a.toNat + b.toNat)

/-- Two counters added, as far as they go. -/
def addCounter (a b : Int64) : Int64 := saturate (a.toInt + b.toInt)

/-- The counters of `s` added to those of `total`. -/
def add (total s : ProfileStats) : ProfileStats :=
  { total with
    nanos := addNanos total.nanos s.nanos
    counters := total.counters.zipWith addCounter s.counters }

/-- The counters as a document, after the stages if there are any. -/
def toJson (s : ProfileStats) : Json :=
  let stages : Json.Members := match s.stages with
    | some text => if text = "" then [] else [("stages", .string text)]
    | none => []
  .object [("debug_info", .object (stages ++ counterNames.zip (s.counters.map Json.ofInt64)))]

end ProfileStats

/-- The entries of a shard that count. -/
structure ShardStats where
  shard : String
  aggregations : List ProfileStats
  deriving Repr, DecidableEq

/-- The report about a query. -/
structure ProfileReport where
  totals : ProfileStats
  /-- The shards with an entry that counts, in their order. -/
  shards : List ShardStats
  deriving Repr, DecidableEq

namespace ProfileReport

/-- The entries of a shard that count, with their numbers read. -/
def shardStats (p : ShardProfile) : ShardStats :=
  ⟨p.shard, (p.entries.filter ProfileStats.counts).map ProfileStats.ofEntry⟩

def ofShards (profiles : List ShardProfile) : ProfileReport :=
  let all := profiles.map shardStats
  { totals := (all.flatMap ShardStats.aggregations).foldl ProfileStats.add {}
    shards := all.filter fun s => !s.aggregations.isEmpty }

def isEmpty (r : ProfileReport) : Bool := r.shards.isEmpty

/-- The report as a document, with nothing in it if no entry counts. -/
def toJson (r : ProfileReport) : Json :=
  let shard (s : ShardStats) : Json :=
    .object
      [ ("shard_id", .string s.shard),
        ("aggregations", .array (s.aggregations.map ProfileStats.toJson)) ]
  let contents : Json.Members :=
    if r.isEmpty then []
    else [("totals", r.totals.toJson), ("shards", .array (r.shards.map shard))]
  .object [("profile", .object contents)]

end ProfileReport
end SeriesQuery
