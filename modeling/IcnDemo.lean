import IcnDemo.Lib.Loop
import IcnDemo.Lib.Rotation
import IcnDemo.Lib.Codec
import IcnDemo.Lib.DecimalText
import IcnDemo.Lib.Runs
import IcnDemo.Lib.Grid
import IcnDemo.Lib.Segments
import IcnDemo.Lib.Argmin
import IcnDemo.Lib.Rounding
import IcnDemo.Lib.Double
import IcnDemo.Lib.Binary64
import IcnDemo.Lib.Grep
import IcnDemo.Lib.BigEndian
import IcnDemo.Lib.PrefixCode
import IcnDemo.Lib.LexOrder
import IcnDemo.Lib.OrderedMap
import IcnDemo.Lib.Drain
import IcnDemo.Cxx
import IcnDemo.RoundRobin.Strategy
import IcnDemo.RoundRobin.Counter
import IcnDemo.RoundRobin.Fairness
import IcnDemo.RoundRobin.Wraparound
import IcnDemo.Ndn.Component
import IcnDemo.Ndn.Name
import IcnDemo.Ndn.Tlv
import IcnDemo.Ndn.Block
import IcnDemo.Ndn.Wire
import IcnDemo.Ndn.Number
import IcnDemo.Ndn.Order
import IcnDemo.Ndn.Successor
import IcnDemo.Ndn.Exclude
import IcnDemo.Ndn.ExcludeRanges
import IcnDemo.Ndn.ExcludeWire
import IcnDemo.Ndn.Selectors
import IcnDemo.Ndn.InterestWire
import IcnDemo.Ndn.MetaInfo
import IcnDemo.Ndn.DataPacket
import IcnDemo.Ndn.Express
import IcnDemo.Ndn.Face
import IcnDemo.Ndn.Transport
import IcnDemo.Ndn.Scheduler
import IcnDemo.Producer.Paths
import IcnDemo.Producer.Sergi
import IcnDemo.Producer.Pending
import IcnDemo.Producer.Table
import IcnDemo.Producer.Crashes
import IcnDemo.Producer.Network
import IcnDemo.Producer.Exchange
import IcnDemo.Ocr.Letter
import IcnDemo.Ocr.Processing
import IcnDemo.Ocr.Wrap
import IcnDemo.Ocr.Segmentation
import IcnDemo.Ocr.Threshold
import IcnDemo.Ocr.Crops
import IcnDemo.Ocr.Layout
import IcnDemo.Ocr.Margins
import IcnDemo.Ocr.Blocks
import IcnDemo.Ocr.Scaling
import IcnDemo.Ocr.Rounding
import IcnDemo.Ocr.Agree
import IcnDemo.Ocr.Matching
import IcnDemo.Ocr.Admissible
import IcnDemo.Ocr.Template
import IcnDemo.Ocr.Rendering
import IcnDemo.Ocr.Training
import IcnDemo.Ocr.RunOcr
import IcnDemo.Ocr.Overflow
import IcnDemo.Dhcp.Nfd
import IcnDemo.Dhcp.Script
import IcnDemo.Dhcp.Leases
