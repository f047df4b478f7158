namespace LinOpt

inductive EngineKind
  | scip
  | gurobi
  | highs
  | coinCbc
  | cpSat
deriving DecidableEq

namespace EngineKind

def all : List EngineKind := [scip, gurobi, highs, coinCbc, cpSat]

def name : EngineKind → String
  | scip => "SCIP"
  | gurobi => "Gurobi"
  | highs => "HiGHS"
  | coinCbc => "COIN-OR CBC"
  | cpSat => "CP-SAT"

def tag : EngineKind → String
  | scip => "Scip"
  | gurobi => "Gurobi"
  | highs => "Highs"
  | coinCbc => "CoinCbc"
  | cpSat => "CpSat"

end EngineKind

inductive CommonParameter
  | relativeGap
  | numberOfThreads
  | timeLimit
deriving DecidableEq

namespace EngineKind

def keyName : EngineKind → CommonParameter → String
  | scip, .relativeGap => "limits/gap"
  | scip, .numberOfThreads => "parallel/maxnthreads"
  | scip, .timeLimit => "limits/time"
  | gurobi, .relativeGap => "MIPGap"
  | gurobi, .numberOfThreads => "Threads"
  | gurobi, .timeLimit => "TimeLimit"
  | highs, .relativeGap => "mip_rel_gap"
  | highs, .numberOfThreads => "threads"
  | highs, .timeLimit => "time_limit"
  | coinCbc, .relativeGap => "ratioGap"
  | coinCbc, .numberOfThreads => "threads"
  | coinCbc, .timeLimit => "seconds"
  | cpSat, .relativeGap => "relative_gap_limit"
  | cpSat, .numberOfThreads => "num_workers"
  | cpSat, .timeLimit => "max_time_in_seconds"

def separator : EngineKind → Char
  | cpSat => ':'
  | _ => '='

end EngineKind

inductive EngineChoice
  | highs
  | coinCbc
  | scip
  | gurobi
deriving DecidableEq

namespace EngineChoice

def all : List EngineChoice := [highs, coinCbc, scip, gurobi]

def kind : EngineChoice → EngineKind
  | highs => .highs
  | coinCbc => .coinCbc
  | scip => .scip
  | gurobi => .gurobi

def name (c : EngineChoice) : String := c.kind.name

def tag (c : EngineChoice) : String := c.kind.tag

def fallback : EngineChoice := highs

end EngineChoice

end LinOpt
