import LoraLink.Usb.Framing
import LoraLink.Usb.Transparency
import LoraLink.Usb.Cobs
import LoraLink.Firmware.Epochs
import LoraLink.Firmware.Tally
import LoraLink.Firmware.Irq
import LoraLink.Firmware.Refuse
import LoraLink.Firmware.Memory
import LoraLink.Host.Outcomes
import LoraLink.Host.Health
import LoraLink.Host.Discipline
import LoraLink.App.RtcmCount
import LoraLink.App.Arrival
import LoraLink.App.Burst
import LoraLink.App.StopRetry
import LoraLink.App.Bodies
import LoraLink.App.Synthetic
import LoraLink.Service.Abort
import LoraLink.Service.Accounting
import LoraLink.Service.EndToEnd
import LoraLink.Service.Lossless
import LoraLink.Service.Conserve
import LoraLink.Service.Freshness
import LoraLink.Service.Recorder
import LoraLink.Service.Handoff
import LoraLink.Service.Keys
import LoraLink.Service.Turns
import LoraLink.Service.Output
import LoraLink.Service.RobotSafe
import LoraLink.Link.Joint
import LoraLink.Link.Wire
import LoraLink.Link.Sight
import LoraLink.Bench.Policy
import LoraLink.Tool.Recording
import LoraLink.Tool.Compare
import LoraLink.Ros.Account
import LoraLink.Ros.Bridge
import LoraLink.Service.Drain
