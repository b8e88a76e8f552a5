import Lliu.DotProductEngine.Result
import Lliu.OrderBook.Model
import Lliu.OrderBook.Levels
import Lliu.LliuTopV2
import Lliu.LliuCore.Inference
import Lliu.LliuTopV2.Updates
import Lliu.LliuTopV2.Orders
import Lliu.OrderBook.Isolation
import Lliu.ParserBook
import Lliu.LliuTopV2.Symbols
import Lliu.Kc705Top
import Lliu.ItchParserV2.Messages
import Lliu.LliuTopV2.Packets
import Lliu.RiskCheck.Positions
import Lliu.LliuTopV2.Kill
import Lliu.LliuCore.Control
import Lliu.LliuTopV2.Hold
import Lliu.Hdl.BinaryFloat
import Lliu.LliuTopV2.BestScore
import Lliu.PcieDmaEngine
import Lliu.PcieDmaEngine.Capture
import Lliu.Hdl.EdgeSync
import Lliu.PcieDmaEngine.Trigger
import Lliu.Hdl.MemWrite
import Lliu.PcieDmaEngine.Transfer
import Lliu.PcieDmaEngine.Descriptors
import Lliu.Axi4LiteSlave
import Lliu.Axi4LiteSlave.Writes
import Lliu.LliuTopV2.AxiWrite
import Lliu.PcieDmaEngine.Bar0
import Lliu.EthAxisRxWrap
import Lliu.PtpCore.Timestamps
import Lliu.LliuTopV2.AxiRead
import Lliu.SnapshotMux.Coherence
import Lliu.ItchParserV2.Frames
import Lliu.LatencyHistogram.Counts
import Lliu.ItchParserV2.RoundTrip
import Lliu.Hdl.Streak
import Lliu.OuchEngine.Encoding
import Lliu.OuchEngine.Watchdog
import Lliu.RiskCheck.Band
import Lliu.LliuCore.Sequencing
import Lliu.FeatureExtractorV2.History
import Lliu.FeatureExtractorV2.Vwap
import Lliu.FeatureExtractorV2.Integers
import Lliu.FeatureExtractorV2.Bf16
import Lliu.FeatureExtractor
import Lliu.ItchParser
import Lliu.LliuTop
import Lliu.LliuTop.Inference
import Lliu.LliuTop.Lossless
import Lliu.LliuTopV2.Features
import Lliu.LliuTop.Spacing
import Lliu.LliuTopV2.Watchlist
import Lliu.Float32
import Lliu.Bfloat16Mul.Product
import Lliu.Fp32Acc.Addition
import Lliu.Fp32Acc.Forwarding
import Lliu.ItchParser.Agreement
import Lliu.Hdl.LimitLedger
import Lliu.Hdl.Store
import Lliu.Hdl.Duty
import Lliu.Trader
import Lliu.LliuTopV2.Trading
import Lliu.LliuTopV2.Programming
import Lliu.LliuTopV2.Causes
import Lliu.LliuTopV2.Exposure
import Lliu.LliuTopV2.Latency
import Lliu.LliuTopV2.Ingress
import Lliu.Hdl.Server
import Lliu.OrderBook.Service
import Lliu.LliuTopV2.Traffic
import Lliu.Desk
import Lliu.FeatureExtractorV2.Vector
import Lliu.LliuTopV2.Desk
import Lliu.Hdl.Gated
import Lliu.Axi4LiteSlave.Reads
import Lliu.FeatureExtractor.Ticks
import Lliu.LliuTop.Host
import Lliu.LliuTopV2.Observers
import Lliu.Kc705Top.Pcie
import Lliu.GoldenModel
import Lliu.GoldenModel.Parsing
import Lliu.GoldenModel.Features
import Lliu.Hdl.Bytes
import Lliu.Axi4StreamDriver
import Lliu.ItchParserV2.Packets
import Lliu.ItchDecoder
import Lliu.ItchDecoder.RoundTrip
import Lliu.ItchDecoder.Sent
import Lliu.MoldUdp64Strip.Loss
import Lliu.Kc705Top.Wire
import Lliu.Desk.Live
import Lliu.LliuTopV2.Relevance
import Lliu.Hdl.Monitor
import Lliu.OuchPacketSva
import Lliu.OuchPacketSva.Verdicts
import Lliu.LatencySva
import Lliu.LliuTop.Contracts
import Lliu.LliuTopV2.Contracts
