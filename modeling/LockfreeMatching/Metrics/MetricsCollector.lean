import LockfreeMatching.Metrics.Percentiles

/-!
# Metrics collector

Two latency histograms and three counters, all owned by the output thread.
-/
namespace LockfreeMatching

structure MetricsCollector where
  matchLatency : LatencyTracker := {}
  orderLatency : LatencyTracker := {}
  totalOrders : UInt64 := 0
  totalMatches : UInt64 := 0
  droppedSamples : UInt64 := 0

namespace MetricsCollector

def recordMatchLatency (m : MetricsCollector) (ns : UInt64) : MetricsCollector :=
  { m with matchLatency := m.matchLatency.record ns }

def recordOrderLatency (m : MetricsCollector) (ns : UInt64) : MetricsCollector :=
  { m with orderLatency := m.orderLatency.record ns }

def incrementOrders (m : MetricsCollector) : MetricsCollector :=
  { m with totalOrders := m.totalOrders + 1 }

def incrementMatches (m : MetricsCollector) : MetricsCollector :=
  { m with totalMatches := m.totalMatches + 1 }

def noteDroppedSamples (m : MetricsCollector) (n : UInt64) : MetricsCollector :=
  { m with droppedSamples := m.droppedSamples + n }

def reset (m : MetricsCollector) : MetricsCollector where
  matchLatency := m.matchLatency.reset
  orderLatency := m.orderLatency.reset

end MetricsCollector

end LockfreeMatching
